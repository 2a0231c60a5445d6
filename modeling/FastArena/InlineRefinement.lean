import FastArena.ArenaWorld
import FastArena.HeapBuffer

/-!
# An inline vector is a list

A push may now be refused the heap buffer it needs; it panics and its argument is
dropped. Apart from that, whoever uses the vector sees the list of the same calls:
where the elements are stored, and that a vector on the heap stays there, shows
nowhere. The destructor destroys the elements of that list.
-/

set_option autoImplicit false

namespace FastArena.InlineRefinement
open FastArena.MachineWord FastArena.ArenaBlock FastArena.InlineStorage FastArena.HeapBuffer
  FastArena.LabelledRun
open FastArena.ArenaWorld (eightBytes)

variable {α : Type}

def capacity (N : ℕ) (v : RawVec α) : ℕ := if v.onHeap then v.data.asHeap.length else N

def asSlice (v : RawVec α) : List (Option α) :=
  (if v.onHeap then v.data.asHeap else v.data.asInline).take v.len

def iterMut (f : ℕ → α → α) (v : RawVec α) : ℕ → RawVec α
  | 0 => v
  | n+1 => (iterMut f v n).modify n (f n)

def dropLoop (boom : α → Bool) (v : RawVec α) : ℕ → ℕ → List (Option α) × Bool
  | 0, _ => ([],false)
  | n+1, i =>
    if (v.read i).any boom then ([v.read i],true)
    else
      let rest := dropLoop boom v n (i+1)
      (v.read i :: rest.1,rest.2)

def drop (ty : Ty) (boom : α → Bool) (v : RawVec α) : List (Option α) × Bool :=
  if ty.needsDrop then dropLoop boom v v.len 0 else ([],false)

inductive Op (α : Type) where
  | push (sys : SystemAlloc) (a : α)
  | pop
  | get (i : ℕ)
  | getMut (i : ℕ) (f : α → α)
  | index (i : ℕ)
  | indexMut (i : ℕ) (f : α → α)
  | iterMut (f : ℕ → α → α)

inductive Reply (α : Type) where
  | done
  | popped (a : Option α)
  | item (a : Option α)
  | panic (message : String)

def outOfBounds (i len : ℕ) : String := s!"index {i} out of bounds (len={len})"

def Op.apply (N : ℕ) (ty : Ty) (v : RawVec α) : Op α → RawVec α × Reply α
  | .push sys a => match pushPanic N sys ty v with
    | some message => (v,.panic message)
    | none => (v.push N a,.done)
  | .pop => (v.pop.2,.popped v.pop.1)
  | .get i => (v,.item (v.read i))
  | .getMut i f => (v.modify i f,.done)
  | .index i =>
    if i < v.len then (v,.item (v.read i)) else (v,.panic (outOfBounds i v.len))
  | .indexMut i f =>
    if i < v.len then (v.modify i f,.done) else (v,.panic (outOfBounds i v.len))
  | .iterMut f => (InlineRefinement.iterMut f v v.len,.done)

def Op.onList (refused : Option String) (l : List α) : Op α → List α × Reply α
  | .push _ a => match refused with
    | some message => (l,.panic message)
    | none => (l++[a],.done)
  | .pop => (l.dropLast,.popped l.getLast?)
  | .get i => (l,.item l[i]?)
  | .getMut i f => (l.modify i f,.done)
  | .index i => if i < l.length then (l,.item l[i]?) else (l,.panic (outOfBounds i l.length))
  | .indexMut i f =>
    if i < l.length then (l.modify i f,.done) else (l,.panic (outOfBounds i l.length))
  | .iterMut f => (l.mapIdx f,.done)

-- `get` and `get_mut` do not check their index: their callers do.
def Op.InRange (len : ℕ) : Op α → Prop
  | .get i => i < len
  | .getMut i _ => i < len
  | _ => True

section storage
variable {N : ℕ} {v : RawVec α} {l : List α}

structure Holds (N : ℕ) (v : RawVec α) (l : List α) : Prop where
  wf : v.Wf N
  word : capacity N v < 2^64
  len : v.len = l.length
  read : ∀ i < l.length, v.read i = l[i]?

theorem capacity_cells (h : v.Wf N) : capacity N v = v.data.cells.length := by
  obtain ⟨data,len,onHeap⟩ := v
  have htag := h.tag
  cases data with
  | inline cells =>
    cases htag
    exact (h.inlineRoom rfl).symm
  | heap cells =>
    cases htag
    rfl

theorem pushPanic_full (h : v.Wf N) (sys : SystemAlloc) (ty : Ty) : pushPanic N sys ty v =
    if v.len = capacity N v then doublePanic sys ty (capacity N v) else none := by
  have hroom := h.room
  rw [← capacity_cells h] at hroom
  unfold pushPanic
  unfold capacity at hroom ⊢
  cases hheap : v.onHeap with
  | true => simp
  | false =>
    rw [hheap, if_neg Bool.false_ne_true] at hroom
    rw [if_neg Bool.false_ne_true, if_neg Bool.false_ne_true]
    by_cases hlt : v.len < N
    · rw [if_pos ⟨rfl,hlt⟩, if_neg (Nat.ne_of_lt hlt)]
    · rw [if_neg (fun h => hlt h.2), if_pos (by omega)]

theorem asSlice_cells (h : v.Wf N) : asSlice v = v.data.cells.take v.len := by
  obtain ⟨data,len,onHeap⟩ := v
  have htag := h.tag
  cases data <;> cases htag <;> rfl

theorem Holds.asSlice (h : Holds N v l) : asSlice v = l.map some := by
  have hroom := h.wf.room
  have hlen := h.len
  rw [asSlice_cells h.wf]
  apply List.ext_getElem
  · rw [List.length_take, List.length_map, ← hlen]
    omega
  · intro i hi hi'
    rw [List.length_map] at hi'
    have hread := h.read i hi'
    rw [RawVec.read_cells h.wf, List.getD_eq_getElem?_getD,
      List.getElem?_eq_getElem (by omega), Option.getD_some, List.getElem?_eq_getElem hi'] at hread
    rw [List.getElem_take, List.getElem_map, hread]

theorem holds_new (hword : N < 2^64) : Holds N (RawVec.new N : RawVec α) [] where
  wf := RawVec.new_wf N
  word := hword
  len := rfl
  read := fun i hi => absurd hi (Nat.not_lt_zero i)

theorem capacity_push (h : v.Wf N) (a : α) :
    capacity N (v.push N a) = if v.len = capacity N v then capacity N v*2 else capacity N v := by
  obtain ⟨data,len,onHeap⟩ := v
  have htag := h.tag
  have hroom := h.room
  cases data with
  | inline cells =>
    cases htag
    have hcells : cells.length = N := h.inlineRoom rfl
    simp only [Storage.cells] at hroom
    by_cases hlt : len < N
    · simp [RawVec.push, capacity, hlt, Nat.ne_of_lt hlt]
    · obtain rfl : len = N := by omega
      simp only [RawVec.push, RawVec.pushSlow, RawVec.promoteAndPush, capacity, Storage.asInline,
        Storage.asHeap, lt_self_iff_false, and_false, if_false, if_true, Bool.false_eq_true,
        List.length_set, List.length_append, List.length_take, List.length_replicate]
      omega
  | heap cells =>
    cases htag
    simp only [Storage.cells] at hroom
    by_cases hfull : len = cells.length
    · simp only [RawVec.push, RawVec.pushSlow, RawVec.heapGrow, capacity, hfull, Storage.asHeap,
        Bool.true_eq_false, false_and, if_false, if_true, List.length_set, List.length_append,
        List.length_take, List.length_replicate, min_self]
      omega
    · simp [RawVec.push, RawVec.pushSlow, capacity, hfull, Storage.asHeap]

theorem holds_push (hN : 0 < N) (h : Holds N v l) (a : α)
    (hword : v.len = capacity N v → capacity N v*2 < 2^64) : Holds N (v.push N a) (l++[a]) := by
  obtain ⟨hwf,hlen,hcells⟩ := RawVec.push_cells h.wf hN a
  refine ⟨hwf,?_,by rw [hlen, h.len, List.length_append, List.length_singleton],?_⟩
  · rw [capacity_push h.wf]
    split
    · next hfull => exact hword hfull
    · exact h.word
  · intro i hi
    have hlast : i ≤ v.len := by
      rw [List.length_append, List.length_singleton] at hi
      have := h.len
      omega
    rw [RawVec.read_cells hwf, hcells i hlast]
    by_cases heq : i = v.len
    · rw [if_pos heq, heq, h.len, List.getElem?_concat_length]
    · have hold : i < l.length := by
        have := h.len
        omega
      rw [if_neg heq, ← RawVec.read_cells h.wf, h.read i hold, List.getElem?_append_left hold]

theorem holds_pop (h : Holds N v l) : v.pop.1 = l.getLast? ∧ Holds N v.pop.2 l.dropLast := by
  by_cases hempty : v.len = 0
  · have hnil : l = [] := List.eq_nil_of_length_eq_zero (h.len ▸ hempty)
    subst hnil
    simp only [RawVec.pop, hempty, if_true, List.getLast?_nil, List.dropLast_nil]
    exact ⟨trivial,h⟩
  · have hlast : l.length-1 < l.length := by
      have := h.len
      omega
    have hwf := RawVec.pop_wf h.wf
    rw [RawVec.pop_nonempty hempty] at hwf ⊢
    refine ⟨?_,hwf,h.word,?_,?_⟩
    · dsimp only
      rw [h.len, h.read _ hlast, List.getLast?_eq_getElem?]
    · simp [h.len]
    · intro i hi
      rw [List.length_dropLast] at hi
      change v.read i = _
      rw [h.read i (by omega), List.getElem?_dropLast, if_pos hi]

theorem holds_modify (h : Holds N v l) {i : ℕ} (hi : i < v.len) (f : α → α) :
    Holds N (v.modify i f) (l.modify i f) := by
  obtain ⟨hflag,-,hcells⟩ := RawVec.modify_cells h.wf i f
  have hwf := RawVec.modify_wf h.wf i f hi
  have hword := h.word
  rw [capacity_cells h.wf] at hword
  refine ⟨hwf,?_,by rw [RawVec.modify_len, h.len, List.length_modify],?_⟩
  · rw [capacity_cells hwf, hcells, List.length_set]
    exact hword
  · intro j hj
    rw [List.length_modify] at hj
    rw [RawVec.read_cells hwf, hcells, RawVec.getD_set _ i j _ (lt_of_lt_of_le hi h.wf.room),
      ← RawVec.read_cells h.wf, ← RawVec.read_cells h.wf, h.read j hj, List.getElem?_modify]
    by_cases hji : j = i
    · simp only [hji, if_true, ← h.read i (hji ▸ hj)]
      rfl
    · simp [hji, Ne.symm hji]

theorem holds_iterMut (h : Holds N v l) (f : ℕ → α → α) (n : ℕ) (hn : n ≤ v.len) :
    Holds N (iterMut f v n) (l.mapIdx (fun i a => if i < n then f i a else a)) := by
  induction n with
  | zero => simpa [iterMut, List.mapIdx_eq_zipIdx_map] using h
  | succ n ih =>
    have hmid := ih (by omega)
    have hlen : (iterMut f v n).len = v.len := by rw [hmid.len, List.length_mapIdx, h.len]
    have hnext := holds_modify hmid (show n < (iterMut f v n).len by omega) (f n)
    have hlist : (l.mapIdx (fun i a => if i < n then f i a else a)).modify n (f n) =
        l.mapIdx (fun i a => if i < n+1 then f i a else a) := by
      apply List.ext_getElem?
      intro i
      rw [List.getElem?_modify, List.getElem?_mapIdx, List.getElem?_mapIdx]
      cases l[i]? with
      | none => simp
      | some a =>
        by_cases hin : n = i
        · simp [hin]
        · have hiff : i < n+1 ↔ i < n := by omega
          simp [hin, hiff]
    rw [← hlist]
    exact hnext

theorem dropLoop_front (boom : α → Bool) (h : Holds N v l) (n i : ℕ) (hn : i+n = l.length) :
    (dropLoop boom v n i).1 <+: (l.drop i).map some ∧
      ((∀ a ∈ l.drop i, boom a = false) →
        dropLoop boom v n i = ((l.drop i).map some,false)) := by
  induction n generalizing i with
  | zero =>
    rw [List.drop_of_length_le (by omega)]
    exact ⟨List.prefix_rfl,fun _ => rfl⟩
  | succ n ih =>
    obtain ⟨hfront,hquiet⟩ := ih (i+1) (by omega)
    have hi : i < l.length := by omega
    have hread : v.read i = some l[i] := by rw [h.read i hi, List.getElem?_eq_getElem hi]
    rw [List.drop_eq_getElem_cons hi, List.map_cons, dropLoop, hread, Option.any_some]
    constructor
    · split
      · exact ⟨_,rfl⟩
      · exact List.cons_prefix_cons.mpr ⟨rfl,hfront⟩
    · intro hall
      rw [if_neg (by simp [hall l[i] List.mem_cons_self]),
        hquiet (fun a ha => hall a (List.mem_cons_of_mem _ ha))]

end storage

/-- A vector and the list of the same calls, with the elements given by the pushes that returned
and those taken back by `pop`. -/
structure State (α : Type) where
  vec : RawVec α
  list : List α
  given : List α
  taken : List α

def start (N : ℕ) : State α := ⟨RawVec.new N,[],[],[]⟩

def Op.refusal (N : ℕ) (ty : Ty) (v : RawVec α) : Op α → Option String
  | .push sys _ => pushPanic N sys ty v
  | _ => none

def Op.gives : Op α → Reply α → List α
  | .push _ a, .done => [a]
  | _, _ => []

def Reply.takes : Reply α → List α
  | .popped (some a) => [a]
  | _ => []

def step (N : ℕ) (ty : Ty) (s : State α) (op : Op α) : State α :=
  let out := op.apply N ty s.vec
  { vec := out.1
    list := (op.onList (op.refusal N ty s.vec) s.list).1
    given := s.given ++ op.gives out.2
    taken := s.taken ++ out.2.takes }

def Agrees (N : ℕ) (ty : Ty) (s : State α) (op : Op α) : Prop :=
  (op.apply N ty s.vec).2 = (op.onList (op.refusal N ty s.vec) s.list).2

def Op.Keeps {κ : Type} (key : α → κ) : Op α → Prop
  | .getMut _ f => ∀ a, key (f a) = key a
  | .indexMut _ f => ∀ a, key (f a) = key a
  | .iterMut f => ∀ i a, key (f i a) = key a
  | _ => True

section refinement
variable {N : ℕ} {ty : Ty} {s : State α}

theorem step_refines (hN : 0 < N) (h : Holds N s.vec s.list) (op : Op α)
    (hop : op.InRange s.vec.len) :
    Agrees N ty s op ∧ Holds N (step N ty s op).vec (step N ty s op).list := by
  have hlen := h.len
  cases op with
  | push sys a =>
    simp only [Agrees, step, Op.apply, Op.onList, Op.refusal]
    cases hpanic : pushPanic N sys ty s.vec with
    | some message => exact ⟨rfl,h⟩
    | none =>
      refine ⟨rfl,holds_push hN h a (fun hfull => ?_)⟩
      rw [pushPanic_full h.wf, if_pos hfull] at hpanic
      exact doublePanic_none hpanic
  | pop =>
    obtain ⟨hlast,hpopped⟩ := holds_pop h
    exact ⟨congrArg Reply.popped hlast,hpopped⟩
  | get i => exact ⟨congrArg Reply.item (h.read i (hlen ▸ hop)),h⟩
  | getMut i f => exact ⟨rfl,holds_modify h hop f⟩
  | index i =>
    simp only [Agrees, step, Op.apply, Op.onList, hlen]
    by_cases hi : i < s.list.length
    · rw [if_pos hi, if_pos hi, h.read i hi]
      exact ⟨rfl,h⟩
    · rw [if_neg hi, if_neg hi]
      exact ⟨rfl,h⟩
  | indexMut i f =>
    simp only [Agrees, step, Op.apply, Op.onList, hlen]
    by_cases hi : i < s.list.length
    · rw [if_pos hi, if_pos hi]
      exact ⟨rfl,holds_modify h (hlen ▸ hi) f⟩
    · rw [if_neg hi, if_neg hi]
      exact ⟨rfl,h⟩
  | iterMut f =>
    refine ⟨rfl,?_⟩
    have hall : s.list.mapIdx (fun i a => if i < s.vec.len then f i a else a) =
        s.list.mapIdx f := by
      apply List.ext_getElem
      · simp
      · intro i hi hi'
        rw [List.length_mapIdx] at hi
        simp [hlen, hi]
    have hdone := holds_iterMut h f s.vec.len (le_refl _)
    rw [hall] at hdone
    exact hdone

theorem map_modify {κ : Type} {key : α → κ} {f : α → α} (hf : ∀ a, key (f a) = key a)
    (l : List α) (i : ℕ) : (l.modify i f).map key = l.map key := by
  apply List.ext_getElem?
  intro j
  rw [List.getElem?_map, List.getElem?_modify, List.getElem?_map]
  cases l[j]? with
  | none => rfl
  | some a =>
    by_cases hij : i = j
    · simp [hij, hf]
    · simp [hij]

/-- An element given to the vector is with it or has been taken back, once. -/
theorem step_accounted (h : Holds N s.vec s.list) (op : Op α) {κ : Type} {key : α → κ}
    (hkeys : op.Keeps key) (hown : ((s.taken ++ s.list).map key).Perm (s.given.map key)) :
    (((step N ty s op).taken ++ (step N ty s op).list).map key).Perm
      ((step N ty s op).given.map key) := by
  have hlen := h.len
  have hsame : ∀ l' : List α, l'.map key = s.list.map key →
      ((s.taken ++ [] ++ l').map key).Perm ((s.given ++ []).map key) := by
    intro l' hlist
    rw [List.append_nil, List.append_nil, List.map_append, hlist, ← List.map_append]
    exact hown
  cases op with
  | push sys a =>
    simp only [step, Op.apply, Op.onList, Op.refusal]
    cases hpanic : pushPanic N sys ty s.vec with
    | some message => exact hsame _ rfl
    | none =>
      change ((s.taken ++ [] ++ (s.list ++ [a])).map key).Perm ((s.given ++ [a]).map key)
      rw [List.append_nil, ← List.append_assoc, List.map_append, @List.map_append _ _ key s.given]
      exact hown.append_right _
  | pop =>
    have hlast := (holds_pop h).1
    simp only [step, Op.apply, Op.onList, hlast]
    rcases List.eq_nil_or_concat' s.list with hnil | ⟨front,a,hconcat⟩
    · rw [hnil]
      exact hsame [] (by rw [hnil])
    · rw [hconcat] at hown ⊢
      rw [List.getLast?_concat, List.dropLast_concat]
      change ((s.taken ++ [a] ++ front).map key).Perm ((s.given ++ []).map key)
      rw [List.append_nil, List.append_assoc]
      refine List.Perm.trans ?_ hown
      exact (List.Perm.append_left s.taken List.perm_append_comm).map key
  | get i => exact hsame _ rfl
  | getMut i f => exact hsame _ (map_modify hkeys _ i)
  | index i =>
    simp only [step, Op.apply, Op.onList, hlen]
    split
    · exact hsame _ rfl
    · exact hsame _ rfl
  | indexMut i f =>
    simp only [step, Op.apply, Op.onList, hlen]
    split
    · exact hsame _ (map_modify hkeys _ i)
    · exact hsame _ rfl
  | iterMut f =>
    refine hsame (s.list.mapIdx f) ?_
    apply List.ext_getElem
    · simp
    · intro i hi hi'
      rw [List.getElem_map, List.getElem_map, List.getElem_mapIdx, hkeys]

/-- What is seen of the vector after a run of calls, and what its destructor does. -/
structure Refined (N : ℕ) (ty : Ty) (s : State α) : Prop where
  slice : asSlice s.vec = s.list.map some
  room : s.vec.len ≤ capacity N s.vec ∧ capacity N s.vec < 2^64
  dropsAll : ∀ boom : α → Bool, (∀ a ∈ s.list, boom a = false) →
    drop ty boom s.vec = (if ty.needsDrop then s.list.map some else [],false)
  dropsFront : ∀ boom : α → Bool, (drop ty boom s.vec).1 <+: s.list.map some

theorem refined_of_holds (h : Holds N s.vec s.list) : Refined N ty s := by
  have hdrop := fun boom => dropLoop_front boom h s.vec.len 0 (by rw [h.len, Nat.zero_add])
  have hroom := h.wf.room
  rw [← capacity_cells h.wf] at hroom
  refine ⟨h.asSlice,⟨hroom,h.word⟩,fun boom hcalm => ?_,fun boom => ?_⟩
  · unfold drop
    split
    · exact (hdrop boom).2 hcalm
    · rfl
  · unfold drop
    split
    · exact (hdrop boom).1
    · exact List.nil_prefix

/-- Every run of calls looks the same on the vector and on a list, and the destructor destroys
what is in that list: never an element that was taken back. -/
theorem refines_list (N : ℕ) (hN : 0 < N) (hword : N < 2^64) (ty : Ty) (ops : List (Op α))
    (hops : Along (step N ty) (fun s op => op.InRange s.vec.len) (start N) ops) :
    Along (step N ty) (Agrees N ty) (start N) ops ∧
      Refined N ty (run (step N ty) (start N) ops) ∧
      ∀ (κ : Type) (key : α → κ), (∀ op ∈ ops, op.Keeps key) →
        (((run (step N ty) (start N) ops).taken ++
            (run (step N ty) (start N) ops).list).map key).Perm
          ((run (step N ty) (start N) ops).given.map key) := by
  have hall : ∀ (ops : List (Op α)) (s : State α), Holds N s.vec s.list →
      Along (step N ty) (fun s op => op.InRange s.vec.len) s ops →
      Along (step N ty) (Agrees N ty) s ops ∧
        Holds N (run (step N ty) s ops).vec (run (step N ty) s ops).list ∧
        ∀ (κ : Type) (key : α → κ), (∀ op ∈ ops, op.Keeps key) →
          ((s.taken ++ s.list).map key).Perm (s.given.map key) →
          (((run (step N ty) s ops).taken ++ (run (step N ty) s ops).list).map key).Perm
            ((run (step N ty) s ops).given.map key) := by
    intro ops
    induction ops with
    | nil => exact fun s h _ => ⟨trivial,h,fun _ _ _ hown => hown⟩
    | cons op ops ih =>
      intro s h hops
      obtain ⟨hagrees,hnext⟩ := @step_refines _ N ty s hN h op hops.1
      obtain ⟨hrest,hend,hperm⟩ := ih _ hnext hops.2
      refine ⟨⟨hagrees,hrest⟩,hend,fun κ key hkeys hown => ?_⟩
      exact hperm κ key (fun o ho => hkeys o (List.mem_cons_of_mem _ ho))
        (step_accounted h op (hkeys op List.mem_cons_self) hown)
  obtain ⟨hagrees,hend,hperm⟩ := hall ops (start N) (holds_new hword) hops
  exact ⟨hagrees,refined_of_holds hend,
    fun κ key hkeys => hperm κ key hkeys (List.Perm.refl _)⟩

def calls : List (Op ℕ) :=
  [.push (fun _ _ => some 4096) 5,.push (fun _ _ => some 4096) 6,.push (fun _ _ => some 8192) 7,
    .getMut 1 (· + 1),.get 1,.pop,.pop,.index 0,.index 1]

theorem refines_list_calls : (1 < 2^64 ∧ Along (step 1 eightBytes)
      (fun s op => op.InRange s.vec.len) (start 1) calls) ∧
    Along (step 1 eightBytes) (Agrees 1 eightBytes) (start 1) calls ∧
    Refined 1 eightBytes (run (step 1 eightBytes) (start 1) calls) := by
  have hrange : Along (step 1 eightBytes) (fun s op => op.InRange s.vec.len) (start 1) calls :=
    ⟨trivial,trivial,trivial,by change 1 < _; decide +kernel,by change 1 < _; decide +kernel,
      trivial,trivial,trivial,trivial,trivial⟩
  have hlist := refines_list 1 Nat.one_pos (by norm_num) eightBytes calls hrange
  exact ⟨⟨by norm_num,hrange⟩,hlist.1,hlist.2.1⟩

end refinement

end FastArena.InlineRefinement
