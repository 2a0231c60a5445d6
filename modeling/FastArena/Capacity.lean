import FastArena.ElementDrops

/-!
# Length and capacity of a vector

A push grows the vector when its length has reached the capacity, and no other
check stands in its way, so the length must never be past it. Every method that
grows keeps the capacity up with the length, but for the two that extend a vector
of elements without size: they set the length and leave the capacity.
-/

set_option autoImplicit false

namespace FastArena.Capacity
open FastArena.MachineWord FastArena.ArenaBlock FastArena.ArenaCore FastArena.ArenaRequests
  FastArena.LabelledRun FastArena.GrowableVec
open FastArena.DropTracking (token)
open FastArena.ElementDrops (Roomed Created created_empty writing_grew writing_stopped)
open FastArena.ArenaWorld (noMemory smallArena eightBytes)

structure State where
  arena : Arena
  vec : ArenaVec

/-- A call of a method; `Extend::extend`, which pushes item after item, each with its own answer of
the system allocator; or a `clear`, `truncate` or `resize` left by a destructor that panics before
the length is set. -/
inductive Op where
  | call (sys : SystemAlloc) (op : VecOp)
  | extend (items : List SystemAlloc)
  | interrupted

def Op.Typed (ty : Ty) : Op → Prop
  | .call _ op => op.Typed ty
  | _ => True

def extendLoop (ty : Ty) : State → List SystemAlloc → State
  | s, [] => s
  | s, sys::rest =>
    let o := GrowableVec.push sys s.arena ty s.vec
    if o.res = .ok then extendLoop ty ⟨o.call.arena,o.vec⟩ rest else ⟨o.call.arena,o.vec⟩

def step (ty : Ty) (s : State) : Op → State
  | .call sys op =>
    let o := op.apply sys s.arena ty s.vec
    ⟨o.call.arena,o.vec⟩
  | .extend items => extendLoop ty s items
  | .interrupted => s

def reserved (ty : Ty) (s : State) : Op → Option ℕ
  | .call sys op =>
    match op with
    | .reserve n | .reserveExact n | .tryReserve n | .tryReserveExact n =>
      if (op.apply sys s.arena ty s.vec).res = .ok then some n else none
    | _ => none
  | _ => none

def Pushing (op : Op) : Prop := ∃ sys, op = .call sys .push ∨ op = .call sys .tryPush

/-- The length stays within the capacity, the capacity does not shrink, and the pushes a
reservation was made for leave it as it is. -/
structure Lawful (ty : Ty) (s : State) (op : Op) : Prop where
  len_le : (step ty s op).vec.len ≤ (step ty s op).vec.cap
  cap_le : s.vec.cap ≤ (step ty s op).vec.cap
  reserve : ∀ n, reserved ty s op = some n → ∀ pushes : List Op, (∀ o ∈ pushes, Pushing o) →
    pushes.length ≤ n → (run (step ty) (step ty s op) pushes).vec.cap = (step ty s op).vec.cap

/-- A call that extends a vector of elements without size, and returns, finds the capacity high
enough already. -/
def Covered (ty : Ty) (s : State) : Op → Prop
  | .call _ (.extendExact n yields) => ty.size = 0 → n ≤ yields → s.vec.len+n < 2^64 →
      s.vec.len+n ≤ s.vec.cap
  | .call _ (.extendFromSlice n) => ty.size = 0 → s.vec.len+n < 2^64 →
      s.vec.len+n ≤ s.vec.cap
  | _ => True

section growth
variable {sys : SystemAlloc} {A : Arena} {ty : Ty} {v : ArenaVec} {room : ℕ}

def Makes (v : ArenaVec) (room : ℕ) (g : VecOutcome) : Prop :=
  (g.grew = true ∧ g.vec.len = v.len ∧ v.cap ≤ g.vec.cap ∧ room ≤ g.vec.cap ∧
      g.vec.cap < 2^64) ∨
    g.grew = false ∧ g.res ≠ .ok ∧ g.vec = v

theorem makes_enough (h : Roomed v) (hroom : room ≤ v.cap) : Makes v room (enough v A) :=
  Or.inl ⟨rfl,rfl,le_refl _,hroom,h.2⟩

theorem makes_refuse (room : ℕ) (fallible : Bool) :
    Makes v room (refuse v A (overflowRes fallible)) := by
  refine Or.inr ⟨rfl,?_,rfl⟩
  cases fallible with
  | false => exact fun h => VecRes.noConfusion h
  | true => exact fun h => VecRes.noConfusion h

theorem makes_grow (fallible : Bool) {n : ℕ} (hcap : v.cap ≤ n) (hroom : room ≤ n)
    (hn : n < 2^64) : Makes v room (growWith fallible sys A ty v n) := by
  rcases @growWith_ends sys A ty v n fallible _ rfl with ⟨hgrew,-,hlen,heq⟩ | ⟨hgrew,hres,hvec⟩
  · exact Or.inl ⟨hgrew,hlen,by omega,by omega,by omega⟩
  · exact Or.inr ⟨hgrew,hres,hvec⟩

theorem makes_push (h : Roomed v) (fallible : Bool) : Makes v (v.len+1)
    (if v.len = v.cap then growOnceWith sys A ty v fallible else enough v A) := by
  obtain ⟨hlen,hcap⟩ := h
  by_cases hfull : v.len = v.cap
  · rw [if_pos hfull]
    unfold growOnceWith doubled
    by_cases hzero : v.cap = 0
    · rw [if_pos hzero]
      exact makes_grow fallible (by omega) (by omega) (by norm_num)
    · rw [if_neg hzero]
      unfold checkedMul
      by_cases hlt : v.cap*2 < 2^64
      · rw [if_pos hlt]
        exact makes_grow fallible (by omega) (by omega) hlt
      · rw [if_neg hlt]
        exact makes_refuse _ fallible
  · rw [if_neg hfull]
    exact makes_enough ⟨hlen,hcap⟩ (by omega)

theorem makes_room (h : Roomed v) (fallible : Bool) (hroom : room < 2^64) :
    Makes v room (if room > v.cap then growWith fallible sys A ty v room else enough v A) := by
  by_cases hgrow : room > v.cap
  · rw [if_pos hgrow]
    exact makes_grow fallible (by omega) (le_refl _) hroom
  · rw [if_neg hgrow]
    exact makes_enough h (by omega)

theorem makes_reserve (h : Roomed v) (fallible : Bool) (n : ℕ) :
    Makes v (min (v.len+n) (2^64-1)) (reserveWith sys A ty v fallible n) :=
  makes_room h fallible (by omega)

theorem makes_reserveExact (h : Roomed v) (fallible : Bool) (n : ℕ) :
    Makes v (v.len+n) (reserveExactWith sys A ty v fallible n) := by
  unfold reserveExactWith checkedAdd
  by_cases hlt : v.len+n < 2^64
  · rw [if_pos hlt]
    exact makes_room h fallible hlt
  · rw [if_neg hlt]
    exact makes_refuse _ fallible

def Widened (v v' : ArenaVec) : Prop := Roomed v' ∧ v.cap ≤ v'.cap

theorem widened_refl (h : Roomed v) : Widened v v := ⟨h,le_refl _⟩

theorem widened_makes (h : Roomed v) {g : VecOutcome} (hg : Makes v room g) :
    Widened v g.vec := by
  rcases hg with ⟨-,hlen,hcap,-,hword⟩ | ⟨-,-,hvec⟩
  · exact ⟨⟨by rw [hlen]; exact h.1.trans hcap,hword⟩,hcap⟩
  · rw [hvec]
    exact widened_refl h

theorem widened_writing (h : Roomed v) {newLen : ℕ} {g : VecOutcome} (hg : Makes v newLen g)
    (unwinds : Option String) : Widened v (writing g newLen unwinds).vec := by
  have hgrown := widened_makes h hg
  rcases hg with ⟨hgrew,-,hcap,hroom,hword⟩ | ⟨hgrew,-,-⟩
  · unfold writing
    rw [if_pos hgrew]
    cases unwinds with
    | some message => exact hgrown
    | none => exact ⟨⟨hroom,hword⟩,hcap⟩
  · rw [writing_stopped hgrew]
    exact hgrown

theorem widened_pushed (h : Roomed v) {g : VecOutcome} (hg : Makes v (v.len+1) g) :
    Widened v (writing g (wadd v.len 1) none).vec := by
  by_cases hlt : v.len+1 < 2^64
  · rw [wadd_eq hlt]
    exact widened_writing h hg none
  · -- no vector is as long: its capacity would not fit a word
    rcases hg with ⟨-,-,-,hroom,hword⟩ | ⟨hgrew,-,hvec⟩
    · omega
    · rw [writing_stopped hgrew, hvec]
      exact widened_refl h

theorem widened_push (h : Roomed v) : Widened v (GrowableVec.push sys A ty v).vec :=
  widened_pushed h (makes_push h false)

theorem widened_tryPush (h : Roomed v) : Widened v (GrowableVec.tryPush sys A ty v).vec := by
  have hmakes := @makes_push sys A ty v h true
  have hgrown := widened_makes h hmakes
  have hwritten := widened_pushed h hmakes
  unfold GrowableVec.tryPush
  dsimp only
  split
  · exact hgrown
  · exact hwritten

theorem widened_extend (h : Roomed v) (n : ℕ) (unwinds : Option String)
    (hcovered : ty.size = 0 → unwinds = none → v.len+n < 2^64 → v.len+n ≤ v.cap) :
    Widened v (extendWith sys A ty v n unwinds).vec := by
  unfold extendWith
  by_cases hn : n = 0
  · rw [if_pos hn]
    exact widened_refl h
  · rw [if_neg hn]
    unfold checkedAdd
    by_cases hlt : v.len+n < 2^64
    · rw [if_pos hlt]
      dsimp only
      by_cases hsize : ty.size = 0
      · rw [if_neg (fun hh => absurd hsize (Nat.ne_of_gt hh.1))]
        cases unwinds with
        | some message => exact widened_refl h
        | none => exact widened_writing h (makes_enough h (hcovered hsize rfl hlt)) none
      · have hpos : 0 < ty.size := Nat.pos_of_ne_zero hsize
        simp only [hpos, true_and]
        exact widened_writing h (makes_room h false hlt) unwinds
    · rw [if_neg hlt]
      exact widened_refl h

theorem widened_truncate (h : Roomed v) (len : ℕ) : Widened v (truncate A v len).vec := by
  obtain ⟨hlen,hcap⟩ := h
  unfold truncate
  split
  · exact ⟨⟨by change len ≤ v.cap; omega,hcap⟩,le_refl _⟩
  · exact ⟨⟨hlen,hcap⟩,le_refl _⟩

theorem widened_resize (h : Roomed v) {n : ℕ} (hn : n < 2^64) (unwinds : Option String) :
    Widened v (resize sys A ty v n unwinds).vec := by
  unfold resize
  split
  · exact widened_writing h (makes_room h false hn) unwinds
  · exact widened_truncate h n

theorem widened_pop (h : Roomed v) : Widened v (pop A v).vec := by
  unfold pop
  split
  · exact widened_refl h
  · exact ⟨⟨(Nat.sub_le _ _).trans h.1,h.2⟩,le_refl _⟩

/-- Every method, if what it extends is covered. -/
theorem widened_apply {s : State} (h : Roomed s.vec) {op : VecOp} (hop : op.Typed ty)
    (hcovered : Covered ty s (.call sys op)) :
    Widened s.vec (op.apply sys s.arena ty s.vec).vec := by
  cases op with
  | push => exact widened_push h
  | tryPush => exact widened_tryPush h
  | reserve n => exact widened_makes h (makes_reserve h false n)
  | tryReserve n => exact widened_makes h (makes_reserve h true n)
  | reserveExact n => exact widened_makes h (makes_reserveExact h false n)
  | tryReserveExact n => exact widened_makes h (makes_reserveExact h true n)
  | extendExact n yields =>
    refine widened_extend h n _ (fun hsize hunwinds hlt => hcovered hsize ?_ hlt)
    by_contra hshort
    rw [if_pos (by omega)] at hunwinds
    exact Option.some_ne_none _ hunwinds
  | extendFromSlice n =>
    exact widened_extend h n none (fun hsize _ hlt => hcovered hsize hlt)
  | resize n unwinds => exact widened_resize h hop unwinds
  | truncate n => exact widened_truncate h n
  | pop => exact widened_pop h
  | clear => exact ⟨⟨Nat.zero_le _,h.2⟩,le_refl _⟩

theorem widened_extendLoop (items : List SystemAlloc) {s : State} (h : Roomed s.vec) :
    Widened s.vec (extendLoop ty s items).vec := by
  induction items generalizing s with
  | nil => exact widened_refl h
  | cons sys rest ih =>
    have hpush := @widened_push sys s.arena ty s.vec h
    unfold extendLoop
    dsimp only
    split
    · have hrest := @ih ⟨(GrowableVec.push sys s.arena ty s.vec).call.arena,
        (GrowableVec.push sys s.arena ty s.vec).vec⟩ hpush.1
      exact ⟨hrest.1,hpush.2.trans hrest.2⟩
    · exact hpush

theorem step_widened {s : State} (h : Roomed s.vec) {op : Op} (hop : op.Typed ty)
    (hcovered : Covered ty s op) : Widened s.vec (step ty s op).vec := by
  cases op with
  | call sys op => exact widened_apply h hop hcovered
  | extend items => exact widened_extendLoop items h
  | interrupted => exact widened_refl h

theorem extend_uncovered {n : ℕ} (hsize : ty.size = 0) (hlt : v.len+n < 2^64) (hn : n ≠ 0) :
    (extendWith sys A ty v n none).vec = { v with len := v.len+n } := by
  unfold extendWith checkedAdd
  rw [if_neg hn, if_pos hlt]
  dsimp only
  rw [if_neg (fun hh => absurd hsize (Nat.ne_of_gt hh.1))]
  rfl

theorem covered_of_len {s : State} (h : Roomed s.vec) {op : Op}
    (hlen : (step ty s op).vec.len ≤ (step ty s op).vec.cap) : Covered ty s op := by
  have hextend : ∀ n, ty.size = 0 → s.vec.len+n < 2^64 → ∀ sys,
      (extendWith sys s.arena ty s.vec n none).vec.len ≤
        (extendWith sys s.arena ty s.vec n none).vec.cap → s.vec.len+n ≤ s.vec.cap := by
    intro n hsize hlt sys hle
    by_cases hn : n = 0
    · rw [hn, Nat.add_zero]
      exact h.1
    · rw [extend_uncovered hsize hlt hn] at hle
      exact hle
  cases op with
  | call sys op =>
    cases op with
    | extendExact n yields =>
      intro hsize hyields hlt
      have hcall : VecOp.apply sys s.arena ty s.vec (.extendExact n yields) =
          extendWith sys s.arena ty s.vec n none := by
        change extendExact sys s.arena ty s.vec n yields = _
        rw [extendExact, if_neg (by omega)]
      change (VecOp.apply sys s.arena ty s.vec (.extendExact n yields)).vec.len ≤
        (VecOp.apply sys s.arena ty s.vec (.extendExact n yields)).vec.cap at hlen
      rw [hcall] at hlen
      exact hextend n hsize hlt sys hlen
    | extendFromSlice n => exact fun hsize hlt => hextend n hsize hlt sys hlen
    | _ => trivial
  | extend items => trivial
  | interrupted => trivial

end growth

section reservation
variable {sys : SystemAlloc} {A : Arena} {ty : Ty} {v : ArenaVec}

def Spare (v : ArenaVec) (n : ℕ) : Prop := v.len+n ≤ v.cap ∨ v.cap = 2^64-1

theorem push_below (fallible : Bool) (h : Roomed v) (hlt : v.len < v.cap) :
    (VecOp.apply sys A ty v (if fallible then .tryPush else .push)).vec =
      { v with len := v.len+1 } := by
  have hadd : wadd v.len 1 = v.len+1 := wadd_eq (by have := h.2; omega)
  cases fallible with
  | false =>
    change (GrowableVec.push sys A ty v).vec = _
    unfold GrowableVec.push
    rw [if_neg (Nat.ne_of_lt hlt), hadd]
    rfl
  | true =>
    change (GrowableVec.tryPush sys A ty v).vec = _
    unfold GrowableVec.tryPush
    rw [if_neg (Nat.ne_of_lt hlt), hadd]
    rfl

theorem push_top (fallible : Bool) (hfull : v.len = v.cap) (hcap : v.cap = 2^64-1) :
    (VecOp.apply sys A ty v (if fallible then .tryPush else .push)).vec = v := by
  have hgrow : ∀ fallible, growOnceWith sys A ty v fallible = refuse v A (overflowRes fallible) := by
    intro fallible
    unfold growOnceWith doubled checkedMul
    rw [if_neg (by omega), if_neg (by omega)]
  cases fallible with
  | false =>
    change (GrowableVec.push sys A ty v).vec = _
    unfold GrowableVec.push
    rw [if_pos hfull]
    change (writing (growOnceWith sys A ty v false) _ _).vec = v
    rw [hgrow]
    rfl
  | true =>
    change (GrowableVec.tryPush sys A ty v).vec = _
    have htry : tryGrow sys A ty v = refuse v A (overflowRes true) := hgrow true
    unfold GrowableVec.tryPush
    rw [if_pos hfull, htry]
    rfl

theorem push_spare (fallible : Bool) (h : Roomed v) {n : ℕ} (hspare : Spare v (n+1)) :
    (VecOp.apply sys A ty v (if fallible then .tryPush else .push)).vec.cap = v.cap ∧
      Roomed (VecOp.apply sys A ty v (if fallible then .tryPush else .push)).vec ∧
      Spare (VecOp.apply sys A ty v (if fallible then .tryPush else .push)).vec n := by
  by_cases hlt : v.len < v.cap
  · rw [push_below fallible h hlt]
    refine ⟨rfl,⟨hlt,h.2⟩,?_⟩
    rcases hspare with hroom | htop
    · exact Or.inl (by dsimp only; omega)
    · exact Or.inr htop
  · have hfull : v.len = v.cap := Nat.le_antisymm h.1 (Nat.le_of_not_lt hlt)
    rcases hspare with hroom | htop
    · omega
    · rw [push_top fallible hfull htop]
      exact ⟨rfl,h,Or.inr htop⟩

theorem pushes_cap (ty : Ty) (pushes : List Op) {s : State} (h : Roomed s.vec) {n : ℕ}
    (hspare : Spare s.vec n) (hpushes : ∀ o ∈ pushes, Pushing o) (hn : pushes.length ≤ n) :
    (run (step ty) s pushes).vec.cap = s.vec.cap := by
  induction pushes generalizing s n with
  | nil => rfl
  | cons o rest ih =>
    obtain ⟨n,rfl⟩ : ∃ m, n = m+1 := ⟨n-1,by rw [List.length_cons] at hn; omega⟩
    obtain ⟨fallible,sys,rfl⟩ : ∃ (fallible : Bool) (sys : SystemAlloc),
        o = .call sys (if fallible then .tryPush else .push) := by
      obtain ⟨sys,rfl | rfl⟩ := hpushes o List.mem_cons_self
      · exact ⟨false,sys,rfl⟩
      · exact ⟨true,sys,rfl⟩
    obtain ⟨hcap,hroomed,hrest⟩ := @push_spare sys s.arena ty s.vec fallible h n hspare
    have hmore := @ih (step ty s (.call sys (if fallible then .tryPush else .push))) hroomed n
      hrest (fun o ho => hpushes o (List.mem_cons_of_mem _ ho)) (Nat.le_of_succ_le_succ hn)
    exact hmore.trans hcap

theorem spare_reserved {s : State} {op : Op} {n : ℕ} (h : Roomed s.vec)
    (hres : reserved ty s op = some n) : Roomed (step ty s op).vec ∧ Spare (step ty s op).vec n := by
  have hmakes : ∀ {g : VecOutcome} {room : ℕ}, Makes s.vec room g → g.res = .ok →
      min (s.vec.len+n) (2^64-1) ≤ room → Roomed g.vec ∧ Spare g.vec n := by
    intro g room hg hok hroom
    refine ⟨(widened_makes h hg).1,?_⟩
    rcases hg with ⟨-,hlen,-,hge,hword⟩ | ⟨-,hno,-⟩
    · unfold Spare
      omega
    · exact absurd hok hno
  cases op with
  | extend items => exact absurd hres.symm (Option.some_ne_none _)
  | interrupted => exact absurd hres.symm (Option.some_ne_none _)
  | call sys op =>
    cases op <;> simp only [reserved, Option.ite_none_right_eq_some, Option.some.injEq,
      reduceCtorEq] at hres
    · obtain ⟨hok,rfl⟩ := hres
      exact hmakes (makes_reserve h false _) hok (le_refl _)
    · obtain ⟨hok,rfl⟩ := hres
      exact hmakes (makes_reserveExact h false _) hok (Nat.min_le_left _ _)
    · obtain ⟨hok,rfl⟩ := hres
      exact hmakes (makes_reserve h true _) hok (le_refl _)
    · obtain ⟨hok,rfl⟩ := hres
      exact hmakes (makes_reserveExact h true _) hok (Nat.min_le_left _ _)

end reservation

theorem lawful_iff {ty : Ty} {s : State} (h : Roomed s.vec) {op : Op} (hop : op.Typed ty) :
    Lawful ty s op ↔ Covered ty s op := by
  refine ⟨fun hlawful => covered_of_len h hlawful.len_le,fun hcovered => ?_⟩
  obtain ⟨hroomed,hcap⟩ := step_widened h hop hcovered
  refine ⟨hroomed.1,hcap,fun n hres pushes hpushes hn => ?_⟩
  exact pushes_cap ty pushes hroomed (spare_reserved h hres).2 hpushes hn

/-- In a run of calls on a vector that was just made, length and capacity keep their law exactly
when no call extends a vector of elements without size past its capacity. -/
theorem capacity_law (A B : Arena) (ty : Ty) (v : ArenaVec) (hv : Created A ty v B)
    (ops : List Op) (hops : ∀ op ∈ ops, op.Typed ty) :
    Along (step ty) (Lawful ty) ⟨B,v⟩ ops ↔ Along (step ty) (Covered ty) ⟨B,v⟩ ops := by
  obtain ⟨hlen,hcap⟩ := created_empty hv
  exact along_congr_while (step ty) (fun _ op => op.Typed ty) (fun s => Roomed s.vec)
    (fun s op h hop => lawful_iff h hop)
    (fun s op h hop hcovered => (step_widened h hop hcovered).1)
    ⟨B,v⟩ ops ⟨by rw [hlen]; exact Nat.zero_le _,hcap⟩ (along_of_forall (step ty) _ ops hops)

def pushesReserved : List Op :=
  [.call noMemory .push,.call noMemory (.reserve 5),.extend [noMemory,noMemory],
    .call noMemory (.extendExact 2 2),.call noMemory .tryPush]

theorem capacity_law_eightBytes : ∃ A, smallArena true 64 = some A ∧
    Along (step eightBytes) (Lawful eightBytes) ⟨A,GrowableVec.new eightBytes⟩ pushesReserved := by
  obtain ⟨A,hA⟩ : ∃ A, smallArena true 64 = some A := ⟨_,rfl⟩
  have htyped : ∀ op ∈ pushesReserved, op.Typed eightBytes := by
    intro op hop
    simp only [pushesReserved, List.mem_cons, List.not_mem_nil, or_false] at hop
    rcases hop with rfl | rfl | rfl | rfl | rfl
    · trivial
    · change 5 < 2^64
      norm_num
    · trivial
    · change 2 < 2^64
      norm_num
    · trivial
  refine ⟨A,hA,(capacity_law A A eightBytes _ .new pushesReserved htyped).mpr ?_⟩
  exact ⟨trivial,trivial,trivial,fun hsize => absurd hsize (by decide),trivial,trivial⟩

def unit : Ty := ⟨0,1,false,powerOfTwo_one,token.align_dvd,token.size_lt⟩

/-- One element without size is copied from a slice, and the length is past the capacity. -/
theorem unit_uncovered : ∃ A, smallArena true 64 = some A ∧
    Created A unit (GrowableVec.new unit) A ∧
    ¬ Along (step unit) (Lawful unit) ⟨A,GrowableVec.new unit⟩
      [.call noMemory (.extendFromSlice 1)] := by
  obtain ⟨A,hA⟩ : ∃ A, smallArena true 64 = some A := ⟨_,rfl⟩
  refine ⟨A,hA,.new,fun hlaw => ?_⟩
  have hroomed : Roomed (GrowableVec.new unit) := ⟨le_refl 0,by norm_num [GrowableVec.new]⟩
  have hcovered := @covered_of_len unit ⟨A,GrowableVec.new unit⟩ hroomed
    (.call noMemory (.extendFromSlice 1)) hlaw.1.len_le
  exact absurd (hcovered rfl (by norm_num [GrowableVec.new])) (by norm_num [GrowableVec.new])

end FastArena.Capacity
