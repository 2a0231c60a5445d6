import FastArena.ElementDrops

/-!
# Dropping an iterator half way

An `ArenaVecIntoIter` hands out elements from the front. What it still holds when
it is dropped is destroyed by a loop that goes up, and the vector inside is left
empty for its own destructor. The documented order is the other one: the two agree
exactly when no more than one element is left.
-/

set_option autoImplicit false

namespace FastArena.IterDrop
open FastArena.MachineWord FastArena.ArenaBlock FastArena.ArenaCore FastArena.LabelledRun
  FastArena.GrowableVec FastArena.ElementDrops
open FastArena.ArenaWorld (noMemory smallArena eightBytes)

def sizeHint (s : State) : Option (ℕ × Option ℕ) :=
  match s.holder with
  | .iter v start =>
    if start ≤ v.len then
      let remaining := v.len-start
      some (remaining,some remaining)
    else none
  | _ => none

def taken (ty : Ty) (s : State) (k : ℕ) : State :=
  run (step ty) s (.intoIter :: List.replicate k .next)

def calm : ℕ → Bool := fun _ => false

variable {ty : Ty} {s : State} {v : ArenaVec}

theorem next_state {start : ℕ} (h : s.holder = .iter v start) : step ty s .next =
    if start < v.len then
      { s with holder := .iter v (start+1), moved := s.moved ++ [s.slots start] }
    else s := by
  unfold step
  dsimp only
  rw [h]
  by_cases hmore : start < v.len
  · simp [next, hmore]
  · simp [next, hmore, Nat.not_lt.mp hmore]

theorem run_next (k : ℕ) {start : ℕ} (h : s.holder = .iter v start) (hle : start ≤ v.len) :
    run (step ty) s (List.replicate k .next) =
      { s with
        holder := .iter v (start+min k (v.len-start))
        moved := s.moved ++ places s.slots start (min k (v.len-start)) } := by
  induction k generalizing s start with
  | zero =>
    cases s
    simp_all [run, places]
  | succ k ih =>
    rw [List.replicate_succ]
    change run (step ty) (step ty s .next) (List.replicate k .next) = _
    rw [next_state h]
    by_cases hmore : start < v.len
    · have hcount : min (k+1) (v.len-start) = min k (v.len-(start+1))+1 := by omega
      rw [if_pos hmore, ih rfl hmore, hcount, places_cons]
      simp only [List.append_assoc, List.singleton_append, State.mk.injEq, Holder.iter.injEq,
        and_true, true_and]
      omega
    · have hend : v.len-start = 0 := by omega
      rw [if_neg hmore, ih h hle, hend, Nat.min_zero, Nat.min_zero]

theorem taken_eq (h : s.holder = .vec v) (k : ℕ) : taken ty s k =
    { s with
      holder := .iter v (min k v.len)
      moved := s.moved ++ places s.slots 0 (min k v.len) } := by
  have hstart : step ty s .intoIter = { s with holder := .iter v 0 } := by
    unfold step
    dsimp only
    rw [h]
  change run (step ty) (step ty s .intoIter) (List.replicate k .next) = _
  rw [hstart, run_next k rfl (Nat.zero_le _)]
  simp

/-- What is left is destroyed from the front, and the vector inside destroys nothing. -/
theorem drop_iter {start : ℕ} (h : s.holder = .iter v start) :
    step ty s (.drop calm calm) =
      { s with
        holder := .gone
        dropped := s.dropped ++
          if ty.needsDrop then places s.slots start (v.len-start) else [] } := by
  unfold step
  dsimp only
  rw [h]
  have hquiet : dropElems ty calm s.slots start v.len =
      (if ty.needsDrop then places s.slots start (v.len-start) else [],false) := by
    unfold dropElems
    split
    · exact dropLoop_calm _ _ (fun _ _ _ => rfl)
    · rfl
  have hinner : (dropElems ty calm s.slots 0 0).1 = [] := by
    unfold dropElems
    split
    · rfl
    · rfl
  simp [dropIter, dropVec, hquiet, hinner]

/-- What the documentation promises of an iterator that is dropped after `k` calls of `next`: the
elements before were handed out in index order, the rest is destroyed from the back. -/
def DropsBackwards (ty : Ty) (s : State) (v : ArenaVec) (k : ℕ) : Prop :=
  let it := taken ty s k
  let out := step ty it (.drop calm calm)
  let left := v.len-min k v.len
  (it.moved = s.moved ++ places s.slots 0 (min k v.len) ∧ it.dropped = s.dropped) ∧
    sizeHint it = some (left,some left) ∧
    out.moved = it.moved ∧
    out.dropped = s.dropped ++
      if ty.needsDrop then (places s.slots (min k v.len) left).reverse else []

theorem reverse_eq_iff {l : List ℕ} (h : l.Nodup) : l.reverse = l ↔ l.length ≤ 1 := by
  constructor
  · intro hsame
    by_contra hlong
    have hpos : 0 < l.length := by omega
    have hfirst : l[l.length-1-0]? = l[0]? := by rw [← List.getElem?_reverse hpos, hsame]
    rw [List.getElem?_eq_getElem (by omega), List.getElem?_eq_getElem hpos,
      Option.some.injEq] at hfirst
    have hidx := h.getElem_inj_iff.mp hfirst
    omega
  · intro hshort
    match l, hshort with
    | [], _ => rfl
    | [a], _ => rfl

/-- The order is the documented one exactly when at most one element is left. The numbers only tell
the elements apart. -/
theorem dropsBackwards_iff (ty : Ty) (s : State) (v : ArenaVec) (k : ℕ) (hv : s.holder = .vec v)
    (hnumbers : (places s.slots 0 v.len).Nodup) :
    DropsBackwards ty s v k ↔ (ty.needsDrop = true → v.len ≤ k+1) := by
  have htaken := @taken_eq ty s v hv k
  have hout := @drop_iter ty (taken ty s k) v (min k v.len) (by rw [htaken])
  have hsize : sizeHint (taken ty s k) = some (v.len-min k v.len,some (v.len-min k v.len)) := by
    rw [htaken]
    simp [sizeHint]
  have hsplit := places_append s.slots 0 (min k v.len) (v.len-min k v.len)
  rw [Nat.add_sub_cancel' (Nat.min_le_right k v.len), Nat.zero_add] at hsplit
  have hleft : (places s.slots (min k v.len) (v.len-min k v.len)).Nodup := by
    rw [hsplit] at hnumbers
    exact (List.nodup_append.mp hnumbers).2.1
  have hlen : (places s.slots (min k v.len) (v.len-min k v.len)).length = v.len-min k v.len := by
    simp [places]
  unfold DropsBackwards
  dsimp only
  rw [hout, hsize, htaken]
  simp only [true_and, List.append_cancel_left_eq, and_self]
  by_cases hdrop : ty.needsDrop = true
  · rw [if_pos hdrop, if_pos hdrop, eq_comm, reverse_eq_iff hleft, hlen]
    simp only [hdrop, forall_const]
    omega
  · simp [hdrop]

theorem push2_holder (h : ∃ v, s.holder = .vec v) :
    ∃ v, (run (step ty) s push2).holder = .vec v :=
  push_holder (push_holder h noMemory) noMemory

def pushed (A : Arena) : State :=
  run (step eightBytes) (start A (GrowableVec.new eightBytes) id) push2

theorem pushed_vec (A : Arena) (hA : smallArena true 64 = some A) :
    ∃ v, (pushed A).holder = .vec v ∧ places (pushed A).slots 0 v.len = [0,1] := by
  obtain ⟨v,hv⟩ : ∃ v, (pushed A).holder = .vec v := push2_holder ⟨_,rfl⟩
  have hheld : held (pushed A) = [0,1] := by
    cases hA
    decide +kernel
  unfold held at hheld
  rw [hv] at hheld
  exact ⟨v,hv,hheld⟩

theorem dropsBackwards_one_left : ∃ A v, smallArena true 64 = some A ∧
    (pushed A).holder = .vec v ∧ v.len = 2 ∧ DropsBackwards eightBytes (pushed A) v 1 := by
  obtain ⟨A,hA⟩ : ∃ A, smallArena true 64 = some A := ⟨_,rfl⟩
  obtain ⟨v,hv,hplaces⟩ := pushed_vec A hA
  have hlen : v.len = 2 := by simpa [places] using congrArg List.length hplaces
  refine ⟨A,v,hA,hv,hlen,(dropsBackwards_iff eightBytes _ v 1 hv ?_).mpr (fun _ => hlen.le)⟩
  rw [hplaces]
  decide

/-- The iterator is dropped at once, and of the two elements the first goes first. -/
theorem first_dropped_first : ∃ A v, smallArena true 64 = some A ∧
    (pushed A).holder = .vec v ∧ ¬ DropsBackwards eightBytes (pushed A) v 0 := by
  obtain ⟨A,hA⟩ : ∃ A, smallArena true 64 = some A := ⟨_,rfl⟩
  obtain ⟨v,hv,hplaces⟩ := pushed_vec A hA
  refine ⟨A,v,hA,hv,?_⟩
  rintro ⟨-,-,-,horder⟩
  have hdone : (pushed A).dropped = [] ∧
      (step eightBytes (taken eightBytes (pushed A) 0) (.drop calm calm)).dropped = [0,1] := by
    cases hA
    constructor
    · decide +kernel
    · decide +kernel
  rw [hdone.1, hdone.2, Nat.zero_min, Nat.sub_zero, hplaces] at horder
  exact absurd horder (by decide)

end FastArena.IterDrop
