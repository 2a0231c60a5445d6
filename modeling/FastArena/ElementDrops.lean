import FastArena.GrowableVec
import FastArena.ArenaWorld

/-!
# Destructors of a vector's elements

Elements have numbers; a place of the buffer keeps the number of the element it
last held. The loops that destroy elements stop at the first destructor that
panics, before the length is set. What is cleaned up next trusts the length, so
an interrupted loop hands destroyed elements to a second one.
-/

set_option autoImplicit false

namespace FastArena.ElementDrops
open FastArena.MachineWord FastArena.ArenaBlock FastArena.ArenaCore FastArena.ArenaRequests
  FastArena.LabelledRun FastArena.GrowableVec
open FastArena.ArenaWorld (noMemory smallArena eightBytes)

inductive Holder where
  | vec (v : ArenaVec)
  | iter (inner : ArenaVec) (start : ℕ)
  | gone

/-- The elements numbered below `born` have been made; `moved` went to the caller, and of `dropped`
the destructor was called. -/
structure State where
  arena : Arena
  holder : Holder
  slots : ℕ → ℕ
  born : ℕ
  moved : List ℕ
  dropped : List ℕ

def dropLoop (boom : ℕ → Bool) (slots : ℕ → ℕ) : ℕ → ℕ → List ℕ × Bool
  | 0, _ => ([],false)
  | n+1, i =>
    if boom (slots i) then ([slots i],true)
    else
      let rest := dropLoop boom slots n (i+1)
      (slots i :: rest.1,rest.2)

def dropElems (ty : Ty) (boom : ℕ → Bool) (slots : ℕ → ℕ) (lo hi : ℕ) : List ℕ × Bool :=
  if ty.needsDrop then dropLoop boom slots (hi-lo) lo else ([],false)

def dropValue (ty : Ty) (e : ℕ) : List ℕ := if ty.needsDrop then [e] else []

/-- Each call comes with the destructors that panic in it. When an iterator is dropped and one of
them does, the vector inside is dropped as well, with `inner` panicking. In a `resize` the first
`clones` calls of `clone` return. -/
inductive Op where
  | push (sys : SystemAlloc)
  | pop
  | clear (boom : ℕ → Bool)
  | truncate (len : ℕ) (boom : ℕ → Bool)
  | resize (sys : SystemAlloc) (newLen clones : ℕ) (boom : ℕ → Bool)
  | intoIter
  | next
  | drop (boom inner : ℕ → Bool)

def Op.Typed : Op → Prop
  | .resize _ newLen _ _ => newLen < 2^64
  | _ => True

section steps
variable (ty : Ty) (s : State) (v : ArenaVec)

def push (sys : SystemAlloc) : State :=
  let val := s.born
  let o := GrowableVec.push sys s.arena ty v
  let s := { s with arena := o.call.arena, holder := .vec o.vec, born := val+1 }
  if o.grew then { s with slots := Function.update s.slots v.len val }
  else { s with dropped := s.dropped ++ dropValue ty val }

def pop : State :=
  if v.len = 0 then s
  else { s with
    holder := .vec (GrowableVec.pop s.arena v).vec
    moved := s.moved ++ [s.slots (v.len-1)] }

def clear (boom : ℕ → Bool) : State :=
  let d := dropElems ty boom s.slots 0 v.len
  let s := { s with dropped := s.dropped ++ d.1 }
  if d.2 then s else { s with holder := .vec (GrowableVec.clear s.arena v).vec }

def truncate (len : ℕ) (boom : ℕ → Bool) : State :=
  if len < v.len then
    let d := dropElems ty boom s.slots len v.len
    let s := { s with dropped := s.dropped ++ d.1 }
    if d.2 then s else { s with holder := .vec (GrowableVec.truncate s.arena v len).vec }
  else s

-- The argument is one element more, and is dropped however the call ends.
def resize (sys : SystemAlloc) (newLen clones : ℕ) (boom : ℕ → Bool) : State :=
  let val := s.born
  if newLen > v.len then
    let made := min clones (newLen - v.len)
    let o := GrowableVec.resize sys s.arena ty v newLen
      (if clones < newLen - v.len then some clonePanic else none)
    let s := { s with
      arena := o.call.arena
      holder := .vec o.vec
      born := val+1
      dropped := s.dropped ++ dropValue ty val }
    if o.grew then
      { s with
        slots := fun i =>
          if v.len ≤ i ∧ i < v.len+made then val+1+(i-v.len) else s.slots i
        born := val+1+made }
    else s
  else
    let s := truncate ty { s with born := val+1 } v newLen boom
    { s with dropped := s.dropped ++ dropValue ty val }

def next (start : ℕ) : State :=
  if start ≥ v.len then s
  else { s with holder := .iter v (start+1), moved := s.moved ++ [s.slots start] }

def dropVec (boom : ℕ → Bool) : State :=
  { s with holder := .gone, dropped := s.dropped ++ (dropElems ty boom s.slots 0 v.len).1 }

-- `Drop for ArenaVecIntoIter`, then for the vector inside: its length is set to zero only if the
-- loop came to its end.
def dropIter (start : ℕ) (boom inner : ℕ → Bool) : State :=
  let d := dropElems ty boom s.slots start v.len
  let s := { s with dropped := s.dropped ++ d.1 }
  dropVec ty s (if d.2 then v else { v with len := 0 }) inner

end steps

def step (ty : Ty) (s : State) : Op → State
  | .push sys => match s.holder with
    | .vec v => push ty s v sys
    | _ => s
  | .pop => match s.holder with
    | .vec v => pop s v
    | _ => s
  | .clear boom => match s.holder with
    | .vec v => clear ty s v boom
    | _ => s
  | .truncate len boom => match s.holder with
    | .vec v => truncate ty s v len boom
    | _ => s
  | .resize sys newLen clones boom => match s.holder with
    | .vec v => resize ty s v sys newLen clones boom
    | _ => s
  | .intoIter => match s.holder with
    | .vec v => { s with holder := .iter v 0 }
    | _ => s
  | .next => match s.holder with
    | .iter v start => next s v start
    | _ => s
  | .drop boom inner => match s.holder with
    | .vec v => dropVec ty s v boom
    | .iter v start => dropIter ty s v start boom inner
    | .gone => s

def places (slots : ℕ → ℕ) (lo n : ℕ) : List ℕ := (List.range' lo n).map slots

def held (s : State) : List ℕ :=
  match s.holder with
  | .vec v => places s.slots 0 v.len
  | .iter v start => places s.slots start (v.len-start)
  | .gone => []

/-- No destructor was called twice, nor for an element the caller has. -/
def Safe (s : State) : Prop := s.dropped.Nodup ∧ s.dropped.Disjoint s.moved

/-- No loop that leaves the elements with their holder is interrupted. -/
def Calm (ty : Ty) (s : State) (op : Op) : Prop :=
  ty.needsDrop = true →
    match op, s.holder with
    | .clear boom, .vec v => ∀ i < v.len, boom (s.slots i) = false
    | .truncate len boom, .vec v => ∀ i < v.len, len ≤ i → boom (s.slots i) = false
    | .resize _ len _ boom, .vec v => ∀ i < v.len, len ≤ i → boom (s.slots i) = false
    | .drop boom _, .iter v start => ∀ i < v.len, start ≤ i → boom (s.slots i) = false
    | _, _ => True

section places
variable {slots slots' : ℕ → ℕ} {lo n : ℕ}

theorem places_concat (slots : ℕ → ℕ) (lo n : ℕ) :
    places slots lo (n+1) = places slots lo n ++ [slots (lo+n)] := by
  rw [places, List.range'_1_concat, List.map_append]
  rfl

theorem places_cons (slots : ℕ → ℕ) (lo n : ℕ) :
    places slots lo (n+1) = slots lo :: places slots (lo+1) n := rfl

theorem places_append (slots : ℕ → ℕ) (lo m n : ℕ) :
    places slots lo (m+n) = places slots lo m ++ places slots (lo+m) n := by
  rw [places, ← List.range'_append_1, List.map_append]
  rfl

theorem places_congr (h : ∀ i, lo ≤ i → i < lo+n → slots i = slots' i) :
    places slots lo n = places slots' lo n := by
  apply List.map_congr_left
  intro i hi
  obtain ⟨hlo,hhi⟩ := List.mem_range'_1.mp hi
  exact h i hlo hhi

theorem dropLoop_front (boom : ℕ → Bool) (slots : ℕ → ℕ) (n i : ℕ) :
    (dropLoop boom slots n i).1 <+: places slots i n := by
  induction n generalizing i with
  | zero => exact List.prefix_rfl
  | succ n ih =>
    rw [dropLoop, places_cons]
    split
    · exact ⟨_,rfl⟩
    · exact List.cons_prefix_cons.mpr ⟨rfl,ih (i+1)⟩

theorem dropLoop_calm {boom : ℕ → Bool} (n i : ℕ)
    (h : ∀ j, i ≤ j → j < i+n → boom (slots j) = false) :
    dropLoop boom slots n i = (places slots i n,false) := by
  induction n generalizing i with
  | zero => rfl
  | succ n ih =>
    have hfirst := h i (le_refl i) (by omega)
    have hrest := ih (i+1) (fun j hlo hhi => h j (by omega) (by omega))
    rw [dropLoop, if_neg (by rw [hfirst]; decide), hrest]
    rfl

theorem count_dropElems (ty : Ty) (boom : ℕ → Bool) (slots : ℕ → ℕ) (lo hi e : ℕ) :
    (dropElems ty boom slots lo hi).1.count e ≤ (places slots lo (hi-lo)).count e := by
  unfold dropElems
  split
  · exact (dropLoop_front boom slots _ _).sublist.count_le e
  · exact Nat.zero_le _

theorem dropElems_calm {ty : Ty} {boom : ℕ → Bool} {lo hi : ℕ}
    (h : ty.needsDrop = true → ∀ i < hi, lo ≤ i → boom (slots i) = false) :
    (dropElems ty boom slots lo hi).2 = false := by
  unfold dropElems
  split
  · next hdrop =>
    rw [dropLoop_calm _ _ (fun j hlo hhi => h hdrop j (by omega) hlo)]
  · rfl

theorem count_dropValue (ty : Ty) (x e : ℕ) :
    (dropValue ty x).count e ≤ if e = x then 1 else 0 := by
  unfold dropValue
  split
  · rw [List.count_singleton]
    split <;> simp_all
  · exact Nat.zero_le _

theorem count_range' (a n e : ℕ) :
    (List.range' a n).count e ≤ if a ≤ e ∧ e < a+n then 1 else 0 := by
  split
  · exact List.nodup_iff_count_le_one.mp List.nodup_range' e
  · next hout =>
    rw [List.count_eq_zero.mpr (fun hin => hout (List.mem_range'_1.mp hin))]

theorem places_filled (slots : ℕ → ℕ) (len made a : ℕ) :
    places (fun i => if len ≤ i ∧ i < len+made then a+(i-len) else slots i) 0 len =
        places slots 0 len ∧
      places (fun i => if len ≤ i ∧ i < len+made then a+(i-len) else slots i) len made =
        List.range' a made := by
  constructor
  · exact places_congr (fun i _ hi => if_neg (by omega))
  · unfold places
    apply List.ext_getElem
    · simp
    · intro i hi hi'
      rw [List.length_range'] at hi'
      rw [List.getElem_map, List.getElem_range', List.getElem_range', if_pos (by omega)]
      omega

end places

section growth
variable {sys : SystemAlloc} {A : Arena} {ty : Ty} {v : ArenaVec} {n : ℕ}

def Roomed (v : ArenaVec) : Prop := v.len ≤ v.cap ∧ v.cap < 2^64

theorem writing_grew {g : VecOutcome} (h : g.grew = true) (newLen : ℕ) :
    writing g newLen none = { g with vec := { g.vec with len := newLen } } := if_pos h

theorem writing_stopped {g : VecOutcome} (h : g.grew = false) (newLen : ℕ)
    (unwinds : Option String) : writing g newLen unwinds = g :=
  if_neg (by rw [h]; decide)

/-- A push has the room it writes to, or leaves the vector as it was. -/
theorem push_cases (h : Roomed v) :
    ((GrowableVec.push sys A ty v).grew = true ∧
      (GrowableVec.push sys A ty v).vec.len = v.len+1 ∧
        Roomed (GrowableVec.push sys A ty v).vec) ∨
      (GrowableVec.push sys A ty v).grew = false ∧ (GrowableVec.push sys A ty v).vec = v := by
  obtain ⟨hlen,hcap⟩ := h
  unfold GrowableVec.push
  by_cases hfull : v.len = v.cap
  · rw [if_pos hfull]
    unfold grow growOnceWith
    cases hdouble : doubled v with
    | none => exact Or.inr ⟨rfl,rfl⟩
    | some n =>
      have hn : v.len < n ∧ n < 2^64 := by
        unfold doubled at hdouble
        split at hdouble
        · obtain rfl := Option.some.inj hdouble
          omega
        · obtain ⟨rfl,hlt⟩ := checkedMul_some hdouble
          omega
      dsimp only
      rcases @growWith_ends sys A ty v n false _ rfl with ⟨hgrew,-,-,hcap'⟩ | ⟨hgrew,-,hvec⟩
      · have hadd : wadd v.len 1 = v.len+1 := wadd_eq (by omega)
        rw [writing_grew hgrew, hadd]
        exact Or.inl ⟨hgrew,rfl,by dsimp only; omega,by dsimp only; omega⟩
      · rw [writing_stopped hgrew]
        exact Or.inr ⟨hgrew,hvec⟩
  · rw [if_neg hfull]
    have hadd : wadd v.len 1 = v.len+1 := wadd_eq (by omega)
    rw [writing_grew rfl, hadd]
    exact Or.inl ⟨rfl,rfl,by change v.len+1 ≤ v.cap; omega,hcap⟩

theorem resize_cases (h : Roomed v) (hn : n < 2^64) (hlonger : v.len < n)
    (unwinds : Option String) :
    ((GrowableVec.resize sys A ty v n unwinds).grew = true ∧
      (GrowableVec.resize sys A ty v n unwinds).vec.len = (if unwinds = none then n else v.len) ∧
        Roomed (GrowableVec.resize sys A ty v n unwinds).vec) ∨
      (GrowableVec.resize sys A ty v n unwinds).grew = false ∧
        (GrowableVec.resize sys A ty v n unwinds).vec = v := by
  obtain ⟨hlen,hcap⟩ := h
  unfold GrowableVec.resize
  rw [if_pos hlonger]
  have hwriting : ∀ g : VecOutcome, g.vec.len = v.len → n ≤ g.vec.cap → g.vec.cap < 2^64 →
      g.grew = true → (writing g n unwinds).grew = true ∧
        (writing g n unwinds).vec.len = (if unwinds = none then n else v.len) ∧
          Roomed (writing g n unwinds).vec := by
    intro g hsame hroom hword hgrew
    unfold writing
    rw [if_pos hgrew]
    cases unwinds with
    | none => exact ⟨hgrew,rfl,hroom,hword⟩
    | some message => exact ⟨hgrew,hsame,by dsimp only; omega,hword⟩
  by_cases hgrow : n > v.cap
  · rw [if_pos hgrow]
    rcases @growWith_ends sys A ty v n false _ rfl with ⟨hgrew,-,hsame,hcap'⟩ | ⟨hgrew,-,hvec⟩
    · exact Or.inl (hwriting _ hsame hcap'.ge (hcap'.trans_lt hn) hgrew)
    · have hstop : writing (growTo sys A ty v n) n unwinds = growTo sys A ty v n :=
        writing_stopped hgrew n unwinds
      rw [hstop]
      exact Or.inr ⟨hgrew,hvec⟩
  · rw [if_neg hgrow]
    exact Or.inl (hwriting (enough v A) rfl (by change n ≤ v.cap; omega) hcap rfl)

end growth

def shares (s : State) (e : ℕ) : ℕ := (held s).count e + s.moved.count e + s.dropped.count e

/-- Every element made is with its holder, with the caller, or destroyed, and only once so. -/
structure Inv (s : State) : Prop where
  once : ∀ e, shares s e ≤ if e < s.born then 1 else 0
  roomed : ∀ v, s.holder = .vec v → Roomed v
  behind : ∀ v start, s.holder = .iter v start → ∀ i < start, s.slots i ∈ s.moved

section steps
variable {ty : Ty} {s : State} {v : ArenaVec}

theorem shares_vec (h : s.holder = .vec v) (e : ℕ) :
    shares s e = (places s.slots 0 v.len).count e + s.moved.count e + s.dropped.count e := by
  unfold shares held
  rw [h]

theorem shares_iter {start : ℕ} (h : s.holder = .iter v start) (e : ℕ) : shares s e =
    (places s.slots start (v.len-start)).count e + s.moved.count e + s.dropped.count e := by
  unfold shares held
  rw [h]

theorem calm_drop (hv : s.holder = .vec v) (boom inner : ℕ → Bool) :
    Calm ty s (.drop boom inner) := by
  intro _
  rw [hv]
  trivial

theorem safe_of_inv (h : Inv s) : Safe s := by
  have hle : ∀ e, shares s e ≤ 1 := by
    intro e
    have honce := h.once e
    split at honce <;> omega
  constructor
  · apply List.nodup_iff_count_le_one.mpr
    intro e
    have honce := hle e
    unfold shares at honce
    omega
  · intro e hdropped hmoved
    have honce := hle e
    unfold shares at honce
    have hone := List.count_pos_iff.mpr hdropped
    have htwo := List.count_pos_iff.mpr hmoved
    omega

theorem inv_vec {s' : State} {v' : ArenaVec} (hholder : s'.holder = .vec v') (hroomed : Roomed v')
    (honce : ∀ e, shares s' e ≤ if e < s'.born then 1 else 0) : Inv s' where
  once := honce
  roomed := by
    intro v hv
    cases hholder.symm.trans hv
    exact hroomed
  behind := fun _ _ hiter => nomatch hholder.symm.trans hiter

theorem inv_gone {s' : State} (hholder : s'.holder = .gone)
    (honce : ∀ e, shares s' e ≤ if e < s'.born then 1 else 0) : Inv s' :=
  ⟨honce,fun _ hv => (nomatch hholder.symm.trans hv),
    fun _ _ hiter => (nomatch hholder.symm.trans hiter)⟩

theorem inv_push (h : Inv s) (hv : s.holder = .vec v) (sys : SystemAlloc) :
    Inv (push ty s v sys) := by
  unfold push
  dsimp only
  rcases @push_cases sys s.arena ty v (h.roomed v hv) with ⟨hgrew,hlen,hroomed⟩ | ⟨hgrew,hvec⟩
  · rw [if_pos hgrew]
    refine inv_vec rfl hroomed ?_
    intro e
    have honce := h.once e
    rw [shares_vec hv] at honce
    rw [@shares_vec _ (GrowableVec.push sys s.arena ty v).vec rfl]
    dsimp only
    have hsame : places (Function.update s.slots v.len s.born) 0 v.len = places s.slots 0 v.len :=
      places_congr (fun i _ hi => Function.update_of_ne (by omega) _ _)
    rw [hlen, places_concat, hsame, Nat.zero_add, Function.update_self, List.count_append,
      List.count_singleton]
    by_cases he : e = s.born
    · subst he
      rw [if_neg (lt_irrefl _)] at honce
      rw [if_pos (Nat.lt_succ_self _), beq_self_eq_true, if_pos rfl]
      omega
    · have hne : (s.born == e) = false := by simpa using fun heq => he heq.symm
      rw [hne, if_neg Bool.false_ne_true]
      split at honce <;> split <;> omega
  · rw [hgrew, if_neg Bool.false_ne_true]
    refine inv_vec rfl (by rw [hvec]; exact h.roomed v hv) ?_
    intro e
    have honce := h.once e
    have hval := count_dropValue ty s.born e
    rw [shares_vec hv] at honce
    rw [@shares_vec _ (GrowableVec.push sys s.arena ty v).vec rfl, hvec]
    dsimp only
    rw [List.count_append]
    split at honce <;> split at hval <;> split <;> omega

theorem inv_pop (h : Inv s) (hv : s.holder = .vec v) : Inv (pop s v) := by
  unfold pop
  split
  · exact h
  · next hne =>
    have hvec : (GrowableVec.pop s.arena v).vec = { v with len := v.len-1 } := by
      unfold GrowableVec.pop
      rw [if_neg hne]
      rfl
    obtain ⟨hlen,hcap⟩ := h.roomed v hv
    rw [hvec]
    refine inv_vec rfl ⟨by dsimp only; omega,hcap⟩ ?_
    intro e
    have honce := h.once e
    have hsplit := places_concat s.slots 0 (v.len-1)
    rw [Nat.sub_add_cancel (Nat.pos_of_ne_zero hne), Nat.zero_add] at hsplit
    rw [shares_vec hv, hsplit, List.count_append] at honce
    rw [@shares_vec _ { v with len := v.len-1 } rfl]
    dsimp only
    rw [List.count_append]
    omega

theorem inv_cut (h : Inv s) (hv : s.holder = .vec v) {len : ℕ} (hle : len ≤ v.len)
    (boom : ℕ → Bool) : Inv { s with
      dropped := s.dropped ++ (dropElems ty boom s.slots len v.len).1
      holder := .vec { v with len := len } } := by
  obtain ⟨hlen,hcap⟩ := h.roomed v hv
  refine inv_vec rfl ⟨hle.trans hlen,hcap⟩ ?_
  intro e
  have honce := h.once e
  have hcount := count_dropElems ty boom s.slots len v.len e
  have hsplit := places_append s.slots 0 len (v.len-len)
  rw [Nat.add_sub_cancel' hle, Nat.zero_add] at hsplit
  rw [shares_vec hv, hsplit, List.count_append] at honce
  rw [@shares_vec _ { v with len := len } rfl]
  dsimp only
  rw [List.count_append]
  omega

theorem inv_clear (h : Inv s) (hv : s.holder = .vec v) {boom : ℕ → Bool}
    (hcalm : Calm ty s (.clear boom)) : Inv (clear ty s v boom) := by
  have hquiet : (dropElems ty boom s.slots 0 v.len).2 = false := by
    apply dropElems_calm
    intro hdrop i hi _
    have hall := hcalm hdrop
    rw [hv] at hall
    exact hall i hi
  unfold clear
  dsimp only
  rw [hquiet, if_neg Bool.false_ne_true]
  exact inv_cut h hv (Nat.zero_le _) boom

theorem inv_truncate (h : Inv s) (hv : s.holder = .vec v) {len : ℕ} {boom : ℕ → Bool}
    (hcalm : ty.needsDrop = true → ∀ i < v.len, len ≤ i → boom (s.slots i) = false) :
    Inv (truncate ty s v len boom) ∧ ∃ v', (truncate ty s v len boom).holder = .vec v' := by
  unfold truncate
  split
  · next hlt =>
    have hvec : (GrowableVec.truncate s.arena v len).vec = { v with len := len } := by
      unfold GrowableVec.truncate
      rw [if_pos hlt]
      rfl
    dsimp only
    rw [dropElems_calm hcalm, if_neg Bool.false_ne_true, hvec]
    exact ⟨inv_cut h hv hlt.le boom,_,rfl⟩
  · exact ⟨h,v,hv⟩

theorem inv_argument (h : Inv s) (hv : s.holder = .vec v) (A : Arena) :
    Inv { s with arena := A, born := s.born+1, dropped := s.dropped ++ dropValue ty s.born } := by
  refine inv_vec hv (h.roomed v hv) ?_
  intro e
  have honce := h.once e
  have hval := count_dropValue ty s.born e
  have hshares := @shares_vec
    { s with arena := A, born := s.born+1, dropped := s.dropped ++ dropValue ty s.born } v hv e
  rw [shares_vec hv] at honce
  rw [hshares]
  dsimp only
  rw [List.count_append]
  split at honce <;> split at hval <;> split <;> omega

theorem truncate_argument {len : ℕ} {boom : ℕ → Bool} (val : ℕ) :
    { truncate ty { s with born := s.born+1 } v len boom with
      dropped :=
        (truncate ty { s with born := s.born+1 } v len boom).dropped ++ dropValue ty val } =
    { truncate ty s v len boom with
      born := s.born+1
      dropped := (truncate ty s v len boom).dropped ++ dropValue ty val } := by
  unfold truncate
  split
  · dsimp only
    split <;> rfl
  · rfl

theorem truncate_born {len : ℕ} {boom : ℕ → Bool} :
    (truncate ty s v len boom).born = s.born := by
  unfold truncate
  split
  · dsimp only
    split <;> rfl
  · rfl

theorem inv_filled (h : Inv s) (hv : s.holder = .vec v) {v' : ArenaVec} (hroomed : Roomed v')
    {made : ℕ} (hlen : v'.len = v.len ∨ v'.len = v.len+made) (A : Arena) :
    Inv { s with
      arena := A
      holder := .vec v'
      slots := fun i =>
        if v.len ≤ i ∧ i < v.len+made then s.born+1+(i-v.len) else s.slots i
      born := s.born+1+made
      dropped := s.dropped ++ dropValue ty s.born } := by
  refine inv_vec rfl hroomed ?_
  intro e
  have honce := h.once e
  have hval := count_dropValue ty s.born e
  obtain ⟨hold,hnew⟩ := places_filled s.slots v.len made (s.born+1)
  have hfresh := count_range' (s.born+1) made e
  rw [shares_vec hv] at honce
  rw [@shares_vec _ v' rfl]
  dsimp only
  rw [List.count_append]
  rcases hlen with heq | heq
  · rw [heq, hold]
    split at honce <;> split at hval <;> split <;> omega
  · rw [heq, places_append, hold, Nat.zero_add, hnew, List.count_append]
    split at honce <;> split at hval <;> split at hfresh <;> split <;> omega

theorem inv_resize (h : Inv s) (hv : s.holder = .vec v) {sys : SystemAlloc} {n clones : ℕ}
    {boom : ℕ → Bool} (hn : n < 2^64) (hcalm : Calm ty s (.resize sys n clones boom)) :
    Inv (resize ty s v sys n clones boom) := by
  unfold resize
  dsimp only
  by_cases hlonger : n > v.len
  · rw [if_pos hlonger]
    rcases @resize_cases sys s.arena ty v n (h.roomed v hv) hn hlonger
      (if clones < n - v.len then some clonePanic else none) with
      ⟨hgrew,hlen,hroomed⟩ | ⟨hgrew,hvec⟩
    · rw [if_pos hgrew]
      refine inv_filled h hv hroomed ?_ _
      rw [hlen]
      by_cases hshort : clones < n - v.len
      · rw [if_pos hshort]
        exact Or.inl rfl
      · rw [if_neg hshort]
        refine Or.inr ?_
        change n = v.len + min clones (n - v.len)
        omega
    · rw [hgrew, if_neg Bool.false_ne_true, hvec, ← hv]
      exact inv_argument h hv _
  · rw [if_neg hlonger, truncate_argument]
    have hall : ty.needsDrop = true → ∀ i < v.len, n ≤ i → boom (s.slots i) = false := by
      intro hdrop
      have hboom := hcalm hdrop
      rw [hv] at hboom
      exact hboom
    obtain ⟨hinv,v',hv'⟩ := inv_truncate h hv hall
    have hborn := @truncate_born ty s v n boom
    have hval := @inv_argument ty _ _ hinv hv' (truncate ty s v n boom).arena
    rw [hborn] at hval
    exact hval

theorem inv_next (h : Inv s) {start : ℕ} (hv : s.holder = .iter v start) :
    Inv (next s v start) := by
  unfold next
  split
  · exact h
  · next hmore =>
    have hcons := places_cons s.slots start (v.len-(start+1))
    rw [show v.len-(start+1)+1 = v.len-start by omega] at hcons
    refine ⟨?_,nofun,?_⟩
    · intro e
      have honce := h.once e
      rw [shares_iter hv, hcons, List.count_cons] at honce
      rw [@shares_iter _ v (start+1) rfl]
      dsimp only
      rw [List.count_append, List.count_singleton]
      omega
    · intro v' start' hiter i hi
      cases hiter
      dsimp only
      rw [List.mem_append]
      rcases Nat.lt_succ_iff_lt_or_eq.mp hi with hlt | rfl
      · exact Or.inl (h.behind v start hv i hlt)
      · exact Or.inr List.mem_cons_self

theorem inv_dropVec (h : Inv s) (hv : s.holder = .vec v) (boom : ℕ → Bool) :
    Inv (dropVec ty s v boom) := by
  refine inv_gone rfl ?_
  intro e
  have honce := h.once e
  have hcount := count_dropElems ty boom s.slots 0 v.len e
  rw [shares_vec hv] at honce
  unfold shares held dropVec
  dsimp only
  rw [List.count_append, List.count_nil]
  rw [Nat.sub_zero] at hcount
  omega

theorem inv_dropIter (h : Inv s) {start : ℕ} (hv : s.holder = .iter v start)
    {boom inner : ℕ → Bool} (hcalm : Calm ty s (.drop boom inner)) :
    Inv (dropIter ty s v start boom inner) := by
  have hquiet : (dropElems ty boom s.slots start v.len).2 = false := by
    apply dropElems_calm
    intro hdrop
    have hall := hcalm hdrop
    rw [hv] at hall
    exact hall
  have hempty : (dropElems ty inner s.slots 0 0).1 = [] := by
    unfold dropElems
    split <;> rfl
  unfold dropIter dropVec
  dsimp only
  rw [hquiet, if_neg Bool.false_ne_true]
  dsimp only
  rw [hempty, List.append_nil]
  refine inv_gone rfl ?_
  intro e
  have honce := h.once e
  have hcount := count_dropElems ty boom s.slots start v.len e
  rw [shares_iter hv] at honce
  unfold shares held
  dsimp only
  rw [List.count_append, List.count_nil]
  omega

theorem inv_step (h : Inv s) {op : Op} (hop : op.Typed) (hcalm : Calm ty s op) :
    Inv (step ty s op) := by
  unfold step
  cases op with
  | push sys =>
    cases hv : s.holder with
    | vec v => exact inv_push h hv sys
    | iter v start => exact h
    | gone => exact h
  | pop =>
    cases hv : s.holder with
    | vec v => exact inv_pop h hv
    | iter v start => exact h
    | gone => exact h
  | clear boom =>
    cases hv : s.holder with
    | vec v => exact inv_clear h hv hcalm
    | iter v start => exact h
    | gone => exact h
  | truncate len boom =>
    cases hv : s.holder with
    | vec v =>
      have hall : ty.needsDrop = true → ∀ i < v.len, len ≤ i → boom (s.slots i) = false := by
        intro hdrop
        have hboom := hcalm hdrop
        rw [hv] at hboom
        exact hboom
      exact (inv_truncate h hv hall).1
    | iter v start => exact h
    | gone => exact h
  | resize sys len clones boom =>
    cases hv : s.holder with
    | vec v => exact inv_resize h hv hop hcalm
    | iter v start => exact h
    | gone => exact h
  | intoIter =>
    cases hv : s.holder with
    | vec v =>
      refine ⟨fun e => ?_,nofun,?_⟩
      · have honce := h.once e
        rw [shares_vec hv] at honce
        exact honce
      · intro v' start hiter i hi
        cases hiter
        exact absurd hi (Nat.not_lt_zero i)
    | iter v start => exact h
    | gone => exact h
  | next =>
    cases hv : s.holder with
    | vec v => exact h
    | iter v start => exact inv_next h hv
    | gone => exact h
  | drop boom inner =>
    cases hv : s.holder with
    | vec v => exact inv_dropVec h hv boom
    | iter v start => exact inv_dropIter h hv hcalm
    | gone => exact h

end steps

inductive Created (A : Arena) (ty : Ty) : ArenaVec → Arena → Prop where
  | new : Created A ty (GrowableVec.new ty) A
  | withCapacity (sys : SystemAlloc) (cap : ℕ) (hcap : cap < 2^64)
      (hres : (withCapacity sys A ty cap).res = .ok) :
      Created A ty (withCapacity sys A ty cap).vec (withCapacity sys A ty cap).call.arena

def start (A : Arena) (v : ArenaVec) (slots : ℕ → ℕ) : State := ⟨A,.vec v,slots,0,[],[]⟩

theorem created_empty {A B : Arena} {ty : Ty} {v : ArenaVec} (h : Created A ty v B) :
    v.len = 0 ∧ v.cap < 2^64 := by
  cases h with
  | new => exact ⟨rfl,by norm_num [GrowableVec.new]⟩
  | withCapacity sys cap hcap hres =>
    unfold withCapacity
    split
    · rcases @growWith_ends sys A ty (GrowableVec.new ty) cap false _ rfl with
        ⟨-,-,hlen,heq⟩ | ⟨-,-,heq⟩
      · exact ⟨hlen,heq.trans_lt hcap⟩
      · have hvec : (growTo sys A ty (GrowableVec.new ty) cap).vec = GrowableVec.new ty := heq
        rw [hvec]
        exact ⟨rfl,by norm_num [GrowableVec.new]⟩
    · split
      · exact ⟨rfl,hcap⟩
      · exact ⟨rfl,by norm_num [enough, GrowableVec.new]⟩

theorem inv_start {A B : Arena} {ty : Ty} {v : ArenaVec} (h : Created A ty v B) (slots : ℕ → ℕ) :
    Inv (start B v slots) := by
  obtain ⟨hlen,hcap⟩ := created_empty h
  refine inv_vec rfl ⟨by omega,hcap⟩ ?_
  intro e
  rw [@shares_vec (start B v slots) v rfl, hlen]
  exact Nat.zero_le _

/-- Until a destructor interrupts one of the loops that leave the elements with their holder, none
is destroyed twice or after it was handed out. Dropping the vector itself may be interrupted. -/
theorem dropped_once {A B : Arena} {ty : Ty} {v : ArenaVec} (hv : Created A ty v B)
    (slots : ℕ → ℕ) (ops : List Op) (hops : Along (step ty)
      (fun s op => op.Typed ∧ Calm ty s op) (start B v slots) ops) :
    Safe (run (step ty) (start B v slots) ops) :=
  safe_of_inv (run_invariant (step ty) _ Inv (fun _ _ h hop => inv_step h hop.1 hop.2) _ ops
    (inv_start hv slots) hops)

def push2 : List Op := [.push noMemory,.push noMemory]

def push2Pop : List Op := [.push noMemory,.push noMemory,.pop]

theorem push_holder {ty : Ty} {s : State} (h : ∃ v, s.holder = .vec v) (sys : SystemAlloc) :
    ∃ v, (step ty s (.push sys)).holder = .vec v := by
  obtain ⟨v,hv⟩ := h
  unfold step push
  dsimp only
  rw [hv]
  dsimp only
  split <;> exact ⟨_,rfl⟩

theorem pop_holder {ty : Ty} {s : State} (h : ∃ v, s.holder = .vec v) :
    ∃ v, (step ty s .pop).holder = .vec v := by
  obtain ⟨v,hv⟩ := h
  unfold step pop
  dsimp only
  rw [hv]
  dsimp only
  split
  · exact ⟨v,hv⟩
  · exact ⟨_,rfl⟩

theorem dropped_once_panicking : ∃ A, smallArena true 64 = some A ∧
    Safe (run (step eightBytes) (start A (GrowableVec.new eightBytes) id)
      (push2Pop ++ [.drop (fun _ => true) (fun _ => true)])) := by
  obtain ⟨A,hA⟩ : ∃ A, smallArena true 64 = some A := ⟨_,rfl⟩
  have hpushed : ∀ s : State, Along (step eightBytes)
      (fun s op => op.Typed ∧ Calm eightBytes s op) s push2Pop :=
    fun _ => ⟨⟨trivial,fun _ => trivial⟩,⟨trivial,fun _ => trivial⟩,
      ⟨trivial,fun _ => trivial⟩,trivial⟩
  have hvec : ∀ s : State, (∃ v, s.holder = .vec v) →
      ∃ v, (run (step eightBytes) s push2Pop).holder = .vec v :=
    fun _ h => @pop_holder eightBytes _ (push_holder (push_holder h noMemory) noMemory)
  obtain ⟨v,hv⟩ := hvec (start A (GrowableVec.new eightBytes) id) ⟨_,rfl⟩
  refine ⟨A,hA,dropped_once .new id _ ?_⟩
  rw [along_append]
  refine ⟨hpushed _,?_⟩
  generalize run (step eightBytes) (start A (GrowableVec.new eightBytes) id) push2Pop = s at hv ⊢
  exact ⟨⟨trivial,calm_drop hv _ _⟩,trivial⟩

/-- A `clear` in which the first destructor panics, and the vector is dropped; an iterator whose
first element was taken and whose second panics as it is dropped. -/
theorem destroyed_again : ∃ A, smallArena true 64 = some A ∧
    ¬ Safe (run (step eightBytes) (start A (GrowableVec.new eightBytes) id)
      (push2 ++ [.clear (· = 0),.drop (fun _ => false) (fun _ => false)])) ∧
    ¬ Safe (run (step eightBytes) (start A (GrowableVec.new eightBytes) id)
      (push2 ++ [.intoIter,.next,.drop (· = 1) (fun _ => false)])) := by
  obtain ⟨A,hA⟩ : ∃ A, smallArena true 64 = some A := ⟨_,rfl⟩
  have htwice : (run (step eightBytes) (start A (GrowableVec.new eightBytes) id)
      (push2 ++ [.clear (· = 0),.drop (fun _ => false) (fun _ => false)])).dropped = [0,0,1] := by
    cases hA
    decide +kernel
  have htaken : (run (step eightBytes) (start A (GrowableVec.new eightBytes) id)
      (push2 ++ [.intoIter,.next,.drop (· = 1) (fun _ => false)])).dropped = [1,0,1] := by
    cases hA
    decide +kernel
  refine ⟨A,hA,fun hsafe => ?_,fun hsafe => ?_⟩
  · have hnodup := hsafe.1
    rw [htwice] at hnodup
    exact absurd hnodup (by decide)
  · have hnodup := hsafe.1
    rw [htaken] at hnodup
    exact absurd hnodup (by decide)

section interrupted
variable {ty : Ty} {s : State} {v : ArenaVec} {boom : ℕ → Bool}

theorem dropLoop_head (boom : ℕ → Bool) (slots : ℕ → ℕ) {n : ℕ} (h : 0 < n) (i : ℕ) :
    slots i ∈ (dropLoop boom slots n i).1 := by
  obtain ⟨n,rfl⟩ := Nat.exists_eq_succ_of_ne_zero h.ne'
  rw [dropLoop]
  split
  · exact List.mem_cons_self
  · exact List.mem_cons_self

theorem dropLoop_panics {slots : ℕ → ℕ} {j n i : ℕ} (hlo : i ≤ j) (hhi : j < i+n)
    (h : boom (slots j) = true) : (dropLoop boom slots n i).2 = true := by
  induction n generalizing i with
  | zero => omega
  | succ n ih =>
    rw [dropLoop]
    split
    · rfl
    · next hquiet =>
      have hne : j ≠ i := fun heq => hquiet (heq ▸ h)
      exact ih (by omega) (by omega)

theorem dropElems_interrupted {slots : ℕ → ℕ} {lo hi : ℕ} (hdrop : ty.needsDrop = true) {j : ℕ}
    (hlo : lo ≤ j) (hhi : j < hi) (h : boom (slots j) = true) :
    (dropElems ty boom slots lo hi).2 = true ∧ slots lo ∈ (dropElems ty boom slots lo hi).1 := by
  unfold dropElems
  rw [if_pos hdrop]
  exact ⟨dropLoop_panics hlo (by omega) h,dropLoop_head boom slots (by omega) lo⟩

theorem not_safe_dropVec (hdrop : ty.needsDrop = true) {i : ℕ} (hi : i < v.len)
    (h : s.slots i ∈ s.dropped) : ¬ Safe (dropVec ty s v (fun _ => false)) := by
  intro hsafe
  have hall : (dropElems ty (fun _ => false) s.slots 0 v.len).1 = places s.slots 0 v.len := by
    unfold dropElems
    rw [if_pos hdrop, dropLoop_calm _ _ (fun _ _ _ => rfl), Nat.sub_zero]
  have hnodup : (s.dropped ++ places s.slots 0 v.len).Nodup := hall ▸ hsafe.1
  have hin : s.slots i ∈ places s.slots 0 v.len :=
    List.mem_map.mpr ⟨i,List.mem_range'_1.mpr (by omega),rfl⟩
  exact (List.nodup_append.mp hnodup).2.2 _ h _ hin rfl

theorem not_safe_dropIter (h : Inv s) {start : ℕ} (hv : s.holder = .iter v start)
    (hdrop : ty.needsDrop = true) {j : ℕ} (hlo : start ≤ j) (hhi : j < v.len)
    (hboom : boom (s.slots j) = true) (inner : ℕ → Bool) :
    ¬ Safe (dropIter ty s v start boom inner) := by
  intro hsafe
  obtain ⟨hpanic,hfirst⟩ := dropElems_interrupted hdrop hlo hhi hboom
  have hinner : s.slots 0 ∈ (dropElems ty inner s.slots 0 v.len).1 := by
    unfold dropElems
    rw [if_pos hdrop]
    exact dropLoop_head inner s.slots (by omega) 0
  unfold dropIter dropVec at hsafe
  dsimp only at hsafe
  rw [hpanic, if_pos rfl] at hsafe
  obtain ⟨hnodup,hdisjoint⟩ := hsafe
  rcases Nat.eq_zero_or_pos start with rfl | hpos
  · exact (List.nodup_append.mp hnodup).2.2 _ (List.mem_append_right _ hfirst) _ hinner rfl
  · exact hdisjoint (List.mem_append_right _ hinner) (h.behind v start hv 0 hpos)

def Cut (s : State) (v : ArenaVec) (s' : State) : Prop :=
  s'.holder = .vec v ∧ s'.slots = s.slots ∧ ∃ i < v.len, s.slots i ∈ s'.dropped

theorem cut_truncate (hv : s.holder = .vec v) (hdrop : ty.needsDrop = true) {lo j : ℕ}
    (hlo : lo ≤ j) (hhi : j < v.len) (hboom : boom (s.slots j) = true) :
    Cut s v (truncate ty s v lo boom) := by
  obtain ⟨hpanic,hfirst⟩ := dropElems_interrupted hdrop hlo hhi hboom
  unfold truncate
  rw [if_pos (by omega)]
  dsimp only
  rw [if_pos hpanic]
  exact ⟨hv,rfl,lo,by omega,List.mem_append_right _ hfirst⟩

theorem cut_clear (hv : s.holder = .vec v) (hdrop : ty.needsDrop = true) {j : ℕ}
    (hhi : j < v.len) (hboom : boom (s.slots j) = true) : Cut s v (clear ty s v boom) := by
  obtain ⟨hpanic,hfirst⟩ := dropElems_interrupted hdrop (Nat.zero_le j) hhi hboom
  unfold clear
  dsimp only
  rw [if_pos hpanic]
  exact ⟨hv,rfl,0,by omega,List.mem_append_right _ hfirst⟩

theorem cut_resize (hv : s.holder = .vec v) (hdrop : ty.needsDrop = true) (sys : SystemAlloc)
    {n j : ℕ} (clones : ℕ) (hlo : n ≤ j) (hhi : j < v.len) (hboom : boom (s.slots j) = true) :
    Cut s v (resize ty s v sys n clones boom) := by
  obtain ⟨hholder,hslots,i,hi,hin⟩ := cut_truncate hv hdrop hlo hhi hboom
  unfold resize
  dsimp only
  rw [if_neg (by omega), truncate_argument]
  exact ⟨hholder,hslots,i,hi,List.mem_append_left _ hin⟩

theorem not_safe_cut (hdrop : ty.needsDrop = true) {s' : State} (h : Cut s v s') :
    ¬ Safe (step ty s' (.drop (fun _ => false) (fun _ => false))) := by
  obtain ⟨hholder,hslots,i,hi,hin⟩ := h
  unfold step
  dsimp only
  rw [hholder]
  exact not_safe_dropVec hdrop hi (hslots ▸ hin)

/-- The condition leaves out no harmless call: after one that breaks it, dropping what is there
destroys an element again. -/
theorem interrupted_unsafe (h : Inv s) {op : Op} (hcalm : ¬ Calm ty s op) :
    ¬ Safe (step ty (step ty s op) (.drop (fun _ => false) (fun _ => false))) := by
  unfold Calm at hcalm
  obtain ⟨hdrop,hbroken⟩ := Classical.not_imp.mp hcalm
  cases hv : s.holder with
  | vec v =>
    rw [hv] at hbroken
    apply @not_safe_cut ty s v hdrop
    unfold step
    cases op with
    | clear boom =>
      obtain ⟨j,hj,hboom⟩ : ∃ j, j < v.len ∧ boom (s.slots j) = true := by simpa using hbroken
      dsimp only
      rw [hv]
      exact cut_clear hv hdrop hj hboom
    | truncate lo boom =>
      obtain ⟨j,hj,hlo,hboom⟩ : ∃ j, j < v.len ∧ lo ≤ j ∧ boom (s.slots j) = true := by
        simpa using hbroken
      dsimp only
      rw [hv]
      exact cut_truncate hv hdrop hlo hj hboom
    | resize sys lo clones boom =>
      obtain ⟨j,hj,hlo,hboom⟩ : ∃ j, j < v.len ∧ lo ≤ j ∧ boom (s.slots j) = true := by
        simpa using hbroken
      dsimp only
      rw [hv]
      exact cut_resize hv hdrop sys clones hlo hj hboom
    | _ => exact absurd trivial hbroken
  | iter v start =>
    rw [hv] at hbroken
    cases op with
    | drop boom inner =>
      obtain ⟨j,hj,hlo,hboom⟩ : ∃ j, j < v.len ∧ start ≤ j ∧ boom (s.slots j) = true := by
        simpa using hbroken
      have hstep : step ty s (.drop boom inner) = dropIter ty s v start boom inner := by
        unfold step
        dsimp only
        rw [hv]
      rw [hstep]
      exact not_safe_dropIter h hv hdrop hlo hj hboom inner
    | _ => exact absurd trivial hbroken
  | gone =>
    rw [hv] at hbroken
    cases op <;> exact absurd trivial hbroken

end interrupted

end FastArena.ElementDrops
