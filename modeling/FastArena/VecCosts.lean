import FastArena.RunningCost
import FastArena.VecGrowth

/-!
# What a vector's calls cost

Growing a vector copies its elements if it has to move, and carves memory from
the arena either way. Pushing doubles the capacity, so pushes pay for the
growth they cause at a constant rate, whatever is popped in between; the bulk
methods grow to just what they need and may copy the whole vector each time.
-/

set_option autoImplicit false

namespace FastArena.VecCosts
open FastArena.MachineWord FastArena.ByteSpan FastArena.ArenaBlock FastArena.ArenaCore
  FastArena.ArenaRequests FastArena.LabelledRun FastArena.GrowableVec FastArena.VecGrowth
  FastArena.ArenaWorld FastArena.RunningCost

-- The elements copied by `grow_to` or `try_grow_to`: all of them once there is a new region, none
-- if the vector is extended where it is.
def growCopies (fallible : Bool) (sys : SystemAlloc) (A : Arena) (ty : Ty) (v : ArenaVec)
    (newCap : ℕ) : ℕ :=
  if ty.size ≠ 0 ∧ extendedEnd A ty v newCap = none ∧
    (growWith fallible sys A ty v newCap).grew = true then v.len
  else 0

def copies (sys : SystemAlloc) (A : Arena) (ty : Ty) (v : ArenaVec) (op : VecOp) : ℕ :=
  match grownTo ty v op with
  | none => 0
  | some newCap => growCopies op.fallible sys A ty v newCap

def carvedBytes (o : Outcome) : ℕ := (o.carved.map (·.span.size)).getD 0

structure Held where
  arena : Arena
  vec : ArenaVec

def Held.step (ty : Ty) (h : Held) (l : SystemAlloc × VecOp) : Held :=
  let o := l.2.apply l.1 h.arena ty h.vec
  ⟨o.call.arena,o.vec⟩

def StackOp : VecOp → Bool
  | .push => true
  | .tryPush => true
  | .truncate _ => true
  | .pop => true
  | .clear => true
  | _ => false

/-- The elements a call has appended: none if it fails or its closure panics. -/
def appended (sys : SystemAlloc) (A : Arena) (ty : Ty) (v : ArenaVec) (op : VecOp) : ℕ :=
  (op.apply sys A ty v).vec.len - v.len

/-- The length of the vector, if a bulk method has changed its capacity. -/
def regrown (sys : SystemAlloc) (A : Arena) (ty : Ty) (v : ArenaVec) (op : VecOp) : ℕ :=
  if StackOp op = true ∨ (op.apply sys A ty v).vec.cap = v.cap then 0 else v.len

def copiesOf (ty : Ty) (h : Held) (l : SystemAlloc × VecOp) : ℕ :=
  copies l.1 h.arena ty h.vec l.2

def appendedOf (ty : Ty) (h : Held) (l : SystemAlloc × VecOp) : ℕ :=
  appended l.1 h.arena ty h.vec l.2

def regrownOf (ty : Ty) (h : Held) (l : SystemAlloc × VecOp) : ℕ :=
  regrown l.1 h.arena ty h.vec l.2

def carvedOf (ty : Ty) (h : Held) (l : SystemAlloc × VecOp) : ℕ :=
  carvedBytes (l.2.apply l.1 h.arena ty h.vec).call

/-- Elements not yet paid for by the capacity there is. -/
def owed (v : ArenaVec) : ℕ := 2*v.len - v.cap

section growth
variable {sys : SystemAlloc} {A : Arena} {ty : Ty} {v : ArenaVec} {n m : ℕ}

theorem growCopies_le (fallible : Bool) : growCopies fallible sys A ty v n ≤ v.len := by
  unfold growCopies
  split
  · exact le_refl _
  · exact Nat.zero_le _

theorem growCopies_failed (fallible : Bool) (h : (growWith fallible sys A ty v n).grew = false) :
    growCopies fallible sys A ty v n = 0 :=
  if_neg (fun hh => Bool.false_ne_true (h.symm.trans hh.2.2))

theorem carved_allocRaw (fallible : Bool) (bytes align : ℕ) :
    carvedBytes (if fallible then tryAllocRaw sys A bytes align
      else allocRaw sys A bytes align) ≤ bytes := by
  have hwith : carvedBytes (allocRawWith fallible sys A bytes align placeNothing) ≤ bytes := by
    unfold allocRawWith
    split
    · split
      · exact Nat.zero_le _
      · unfold onRaw
        split
        · exact le_refl _
        · exact Nat.zero_le _
    · exact Nat.zero_le _
  cases fallible <;> exact hwith

theorem carved_extendInPlace (h : extendedEnd A ty v n = some m) :
    carvedBytes (extendInPlace A m) ≤ n * ty.size := by
  unfold extendedEnd at h
  split at h
  · next hcap =>
    dsimp only at h
    split at h
    · next hend =>
      split at h
      · obtain rfl := Option.some.inj h
        have hle : (n - v.cap) * ty.size ≤ n * ty.size := Nat.mul_le_mul_right _ (Nat.sub_le _ _)
        have hextra : wmul (n - v.cap) ty.size ≤ (n - v.cap) * ty.size := Nat.mod_le _ _
        have hword : wmul (n - v.cap) ty.size < 2^64 := Nat.mod_lt _ (by norm_num)
        have hptr := wadd_lt v.ptr (wmul v.cap ty.size)
        rw [hend] at hptr
        change wsub (wadd (wadd v.ptr (wmul v.cap ty.size)) _) A.curPtr ≤ _
        rw [hend]
        generalize wmul (n - v.cap) ty.size = extra at hextra hword ⊢
        have hback : wsub (wadd A.curPtr extra) A.curPtr = extra := by
          unfold wsub wadd
          omega
        rw [hback]
        exact hextra.trans hle
      · cases h
    · cases h
  · cases h

theorem growWith_carved (fallible : Bool) :
    carvedBytes (growWith fallible sys A ty v n).call ≤ n * ty.size := by
  unfold growWith
  split
  · exact Nat.zero_le _
  · cases hend : extendedEnd A ty v n with
    | some m => exact carved_extendInPlace hend
    | none =>
      dsimp only
      cases hmul : checkedMul n ty.size with
      | none => exact Nat.zero_le _
      | some bytes =>
        have hraw := @carved_allocRaw sys A fallible bytes ty.align
        obtain ⟨rfl,-⟩ := checkedMul_some hmul
        dsimp only
        split <;> exact hraw

theorem carved_failed (fallible : Bool) (bytes align : ℕ)
    (h : ∀ p, (if fallible then tryAllocRaw sys A bytes align
      else allocRaw sys A bytes align).ret ≠ .ptr p) :
    carvedBytes (if fallible then tryAllocRaw sys A bytes align
      else allocRaw sys A bytes align) = 0 := by
  have hwith : (∀ p, (allocRawWith fallible sys A bytes align placeNothing).ret ≠ .ptr p) →
      carvedBytes (allocRawWith fallible sys A bytes align placeNothing) = 0 := by
    unfold allocRawWith
    split
    · split
      · exact fun _ => rfl
      · unfold onRaw
        split
        · exact fun hret => absurd rfl (hret _)
        · exact fun _ => rfl
    · exact fun _ => rfl
  cases fallible <;> exact hwith h

theorem growWith_failed (fallible : Bool) (h : (growWith fallible sys A ty v n).grew = false) :
    carvedBytes (growWith fallible sys A ty v n).call = 0 := by
  unfold growWith at h ⊢
  split
  · rfl
  · next hsize =>
    rw [if_neg hsize] at h
    cases hend : extendedEnd A ty v n with
    | some m =>
      rw [hend] at h
      cases h
    | none =>
      rw [hend] at h
      dsimp only at h ⊢
      cases hmul : checkedMul n ty.size with
      | none => rfl
      | some bytes =>
        rw [hmul] at h
        dsimp only at h ⊢
        have hraw := @carved_failed sys A fallible bytes ty.align
        generalize (if fallible then tryAllocRaw sys A bytes ty.align
          else allocRaw sys A bytes ty.align) = raw at h hraw ⊢
        cases hret : raw.ret with
        | ptr p =>
          rw [hret] at h
          cases h
        | none => exact hraw (by rw [hret]; nofun)
        | panic message => exact hraw (by rw [hret]; nofun)

inductive Pushed (sys : SystemAlloc) (A : Arena) (ty : Ty) (v : ArenaVec) (op : VecOp)
    (o : VecOutcome) : Prop where
  | cheap (hvec : o.vec = v ∨ o.vec = { v with len := wadd v.len 1 })
      (hcopies : copies sys A ty v op = 0) (hcarved : carvedBytes o.call = 0)
  | grown (hfull : v.len = v.cap) (hlen : o.vec.len = wadd v.len 1)
      (hcap : o.vec.cap = if v.cap = 0 then 4 else v.cap*2)
      (hcopies : copies sys A ty v op ≤ v.len) (hcarved : carvedBytes o.call ≤ o.vec.cap * ty.size)

theorem doubled_some (h : doubled v = some n) : n = if v.cap = 0 then 4 else v.cap*2 := by
  unfold doubled at h
  by_cases hcap : v.cap = 0
  · rw [if_pos hcap] at h ⊢
    exact (Option.some.inj h).symm
  · rw [if_neg hcap] at h ⊢
    exact (checkedMul_some h).1

theorem pushed_with {op : VecOp} {o : VecOutcome}
    (hroom : grownTo ty v op = if v.len = v.cap then doubled v else none)
    (hcall : o.call = growing op.fallible sys A ty v (grownTo ty v op))
    (hvec : o.vec = (writing (if v.len = v.cap then growOnceWith sys A ty v op.fallible
      else enough v A) (wadd v.len 1) none).vec) : Pushed sys A ty v op o := by
  by_cases hfull : v.len = v.cap
  · rw [if_pos hfull] at hroom hvec
    unfold growOnceWith at hvec
    cases hdoubled : doubled v with
    | none =>
      rw [hdoubled] at hroom hvec
      rw [hroom] at hcall
      exact .cheap (Or.inl hvec) (by rw [copies, hroom]) (by rw [hcall]; rfl)
    | some newCap =>
      rw [hdoubled] at hroom hvec
      rw [hroom] at hcall
      have hcopies : copies sys A ty v op = growCopies op.fallible sys A ty v newCap := by
        rw [copies, hroom]
      have hcall' : o.call = (growWith op.fallible sys A ty v newCap).call := hcall
      dsimp only at hvec
      rcases growWith_ends op.fallible (g := growWith op.fallible sys A ty v newCap) rfl with
        ⟨hgrew,-,-,hcap⟩ | ⟨hgrew,-,hsame⟩
      · rw [writing, if_pos hgrew] at hvec
        have hnew : o.vec.cap = newCap := by rw [hvec]; exact hcap
        refine .grown hfull (by rw [hvec]) (hnew.trans (doubled_some hdoubled)) ?_ ?_
        · rw [hcopies]
          exact growCopies_le op.fallible
        · rw [hcall', hnew]
          exact growWith_carved op.fallible
      · rw [writing, if_neg (by rw [hgrew]; exact Bool.false_ne_true), hsame] at hvec
        refine .cheap (Or.inl hvec) ?_ ?_
        · rw [hcopies]
          exact growCopies_failed op.fallible hgrew
        · rw [hcall']
          exact growWith_failed op.fallible hgrew
  · rw [if_neg hfull] at hroom hvec
    rw [hroom] at hcall
    exact .cheap (Or.inr hvec) (by rw [copies, hroom]) (by rw [hcall]; rfl)

theorem pushed_push : Pushed sys A ty v .push (push sys A ty v) :=
  pushed_with rfl (apply_call .push) rfl

theorem growOnce_err {e : TryReserveError} (fallible : Bool)
    (h : (growOnceWith sys A ty v fallible).res = .err e) :
    (growOnceWith sys A ty v fallible).grew = false := by
  unfold growOnceWith at h ⊢
  cases hdoubled : doubled v with
  | none => rfl
  | some newCap =>
    rw [hdoubled] at h
    dsimp only at h ⊢
    rcases growWith_ends fallible (g := growWith fallible sys A ty v newCap) rfl with
      ⟨-,hres,-⟩ | ⟨hgrew,-⟩
    · rw [hres] at h
      cases h
    · exact hgrew

theorem tryPush_vec : (tryPush sys A ty v).vec = (writing (if v.len = v.cap then
    growOnceWith sys A ty v true else enough v A) (wadd v.len 1) none).vec := by
  unfold tryPush tryGrow
  dsimp only
  split
  · next e hres =>
    by_cases hfull : v.len = v.cap
    · rw [if_pos hfull] at hres ⊢
      rw [writing, if_neg (by rw [growOnce_err true hres]; exact Bool.false_ne_true)]
    · rw [if_neg hfull] at hres
      cases hres
  · rfl

theorem pushed_tryPush : Pushed sys A ty v .tryPush (tryPush sys A ty v) :=
  pushed_with rfl (apply_call .tryPush) tryPush_vec

def grownCap (fallible : Bool) (sys : SystemAlloc) (A : Arena) (ty : Ty) (v : ArenaVec) :
    Option ℕ → ℕ
  | none => v.cap
  | some n => (growWith fallible sys A ty v n).vec.cap

theorem writing_cap (g : VecOutcome) (newLen : ℕ) (unwinds : Option String) :
    (writing g newLen unwinds).vec.cap = g.vec.cap := by
  unfold writing
  split
  · cases unwinds <;> rfl
  · rfl

theorem beyond_some {room : Option ℕ} (h : beyond v room = some n) : v.cap < n := by
  obtain ⟨-,hlt⟩ := Option.filter_eq_some_iff.mp h
  exact of_decide_eq_true hlt

theorem beyond_cap (fallible : Bool) (room : ℕ) :
    (if room > v.cap then growWith fallible sys A ty v room else enough v A).vec.cap =
      grownCap fallible sys A ty v (beyond v (some room)) := by
  unfold beyond
  simp only [Option.filter_some, decide_eq_true_eq]
  by_cases hroom : v.cap < room
  · rw [if_pos hroom, if_pos hroom]
    rfl
  · rw [if_neg hroom, if_neg hroom]
    rfl

theorem reserveExact_cap (fallible : Bool) (additional : ℕ) :
    (reserveExactWith sys A ty v fallible additional).vec.cap =
      grownCap fallible sys A ty v (beyond v (checkedAdd v.len additional)) := by
  unfold reserveExactWith
  cases checkedAdd v.len additional with
  | none => rfl
  | some room => exact beyond_cap fallible room

theorem extend_cap (addLen : ℕ) (unwinds : Option String) :
    (extendWith sys A ty v addLen unwinds).vec.cap = grownCap false sys A ty v
      (if addLen = 0 ∨ ty.size = 0 then none else beyond v (checkedAdd v.len addLen)) := by
  unfold extendWith
  by_cases hn : addLen = 0
  · rw [if_pos hn, if_pos (Or.inl hn)]
    rfl
  · rw [if_neg hn]
    cases hsum : checkedAdd v.len addLen with
    | none =>
      rw [show beyond v none = none from rfl, ite_self]
      rfl
    | some room =>
      dsimp only
      rw [writing_cap]
      by_cases hsize : ty.size = 0
      · rw [if_pos (Or.inr hsize), if_neg (fun hh => absurd hsize (Nat.ne_of_gt hh.1))]
        rfl
      · have hpos : 0 < ty.size := Nat.pos_of_ne_zero hsize
        rw [if_neg (not_or.mpr ⟨hn,hsize⟩), ← beyond_cap]
        simp only [gt_iff_lt, hpos, true_and]
        rfl

theorem apply_cap {op : VecOp} (hpush : op ≠ .push) (htry : op ≠ .tryPush) :
    (op.apply sys A ty v).vec.cap = grownCap op.fallible sys A ty v (grownTo ty v op) := by
  cases op with
  | push => exact absurd rfl hpush
  | tryPush => exact absurd rfl htry
  | reserve additional => exact beyond_cap false _
  | reserveExact additional => exact reserveExact_cap false additional
  | tryReserve additional => exact beyond_cap true _
  | tryReserveExact additional => exact reserveExact_cap true additional
  | extendExact addLen yields => exact extend_cap addLen _
  | extendFromSlice addLen => exact extend_cap addLen none
  | resize newLen unwinds =>
    change (resize sys A ty v newLen unwinds).vec.cap =
      grownCap false sys A ty v (if newLen > v.len then beyond v (some newLen) else none)
    unfold resize
    split
    · rw [writing_cap]
      exact beyond_cap false newLen
    · unfold truncate
      split <;> rfl
  | truncate len =>
    change (truncate A v len).vec.cap = v.cap
    unfold truncate
    split <;> rfl
  | pop =>
    change (pop A v).vec.cap = v.cap
    unfold pop
    split <;> rfl
  | clear => rfl

theorem grownTo_more {op : VecOp} (hpush : op ≠ .push) (htry : op ≠ .tryPush)
    (h : grownTo ty v op = some n) : v.cap < n := by
  cases op with
  | push => exact absurd rfl hpush
  | tryPush => exact absurd rfl htry
  | reserve additional => exact beyond_some h
  | reserveExact additional => exact beyond_some h
  | tryReserve additional => exact beyond_some h
  | tryReserveExact additional => exact beyond_some h
  | extendExact addLen yields => exact beyond_some (Option.ite_none_left_eq_some.mp h).2
  | extendFromSlice addLen => exact beyond_some (Option.ite_none_left_eq_some.mp h).2
  | resize newLen unwinds => exact beyond_some (Option.ite_none_right_eq_some.mp h).2
  | truncate len => cases h
  | pop => cases h
  | clear => cases h

theorem cap_kept {op : VecOp} (hpush : op ≠ .push) (htry : op ≠ .tryPush) :
    v.cap ≤ (op.apply sys A ty v).vec.cap := by
  rw [apply_cap hpush htry]
  cases hgrown : grownTo ty v op with
  | none => exact le_refl _
  | some newCap =>
    have hmore := grownTo_more hpush htry hgrown
    rcases growWith_ends op.fallible (g := growWith op.fallible sys A ty v newCap) rfl with
      ⟨-,-,-,hcap⟩ | ⟨-,-,hsame⟩
    · exact hmore.le.trans (le_of_eq hcap.symm)
    · exact le_of_eq (congrArg ArenaVec.cap hsame).symm

theorem owed_kept {o : VecOutcome} (h : v.cap ≤ o.vec.cap) :
    owed o.vec ≤ 2*(o.vec.len - v.len) + owed v := by
  unfold owed
  omega

theorem wadd_next (a : ℕ) : wadd a 1 = a+1 ∨ wadd a 1 ≤ a ∧ 0 < a := by
  unfold wadd
  omega

/-- A push pays for the growth it causes with what the pushes since the last growth have left. -/
theorem owed_pushed {op : VecOp} {o : VecOutcome} (h : Pushed sys A ty v op o) :
    copies sys A ty v op + owed o.vec ≤ 2*(o.vec.len - v.len) + owed v ∧
      carvedBytes o.call + 2 * owed o.vec * ty.size ≤
        (4*(o.vec.len - v.len) + 2 * owed v) * ty.size := by
  cases h with
  | cheap hvec hcopies hcarved =>
    have hcap : v.cap ≤ o.vec.cap := by
      rcases hvec with hvec | hvec <;> rw [hvec]
    have howed := owed_kept hcap
    rw [hcopies, hcarved, Nat.zero_add, Nat.zero_add]
    exact ⟨howed,Nat.mul_le_mul_right _ (by omega)⟩
  | grown hfull hlen hcap hcopies hcarved =>
    have hnext := wadd_next v.len
    have hnew : v.len + owed o.vec ≤ 2*(o.vec.len - v.len) + owed v ∧
        o.vec.cap + 2 * owed o.vec ≤ 4*(o.vec.len - v.len) + 2 * owed v := by
      unfold owed
      rw [hlen, hcap]
      split <;> omega
    refine ⟨by omega,?_⟩
    calc
      carvedBytes o.call + 2 * owed o.vec * ty.size
          ≤ o.vec.cap * ty.size + 2 * owed o.vec * ty.size := Nat.add_le_add_right hcarved _
      _ = (o.vec.cap + 2 * owed o.vec) * ty.size := (Nat.add_mul _ _ _).symm
      _ ≤ _ := Nat.mul_le_mul_right _ hnew.2

theorem copies_le_regrown {op : VecOp} (hpush : op ≠ .push) (htry : op ≠ .tryPush) :
    copies sys A ty v op ≤ regrown sys A ty v op := by
  have hcap := @apply_cap sys A ty v op hpush htry
  unfold copies
  split
  · exact Nat.zero_le _
  · next newCap hgrown =>
    have hmore := grownTo_more hpush htry hgrown
    rcases growWith_ends op.fallible (g := growWith op.fallible sys A ty v newCap) rfl with
      ⟨-,-,-,hnew⟩ | ⟨hgrew,-,-⟩
    · have hbulk : ¬ (StackOp op = true ∨ (op.apply sys A ty v).vec.cap = v.cap) := by
        rintro (hstack | hsame)
        · cases op <;> contradiction
        · rw [hsame, hgrown] at hcap
          exact Nat.ne_of_lt hmore (hcap.trans hnew)
      unfold regrown
      rw [if_neg hbulk]
      exact growCopies_le op.fallible
    · rw [growCopies_failed op.fallible hgrew]
      exact Nat.zero_le _

theorem copies_step (op : VecOp) : copies sys A ty v op + owed (op.apply sys A ty v).vec ≤
    2 * appended sys A ty v op + regrown sys A ty v op + owed v := by
  by_cases hpush : op = .push
  · subst hpush
    exact (owed_pushed pushed_push).1
  · by_cases htry : op = .tryPush
    · subst htry
      exact (owed_pushed pushed_tryPush).1
    · have howed := owed_kept (@cap_kept sys A ty v op hpush htry)
      have hcopies := @copies_le_regrown sys A ty v op hpush htry
      unfold appended
      omega

/-- Of the stack methods only the pushes carve anything. -/
theorem stack_step {op : VecOp} (hstack : StackOp op = true) :
    carvedBytes (op.apply sys A ty v).call + 2 * owed (op.apply sys A ty v).vec * ty.size ≤
      4 * ty.size * appended sys A ty v op + 2 * owed v * ty.size := by
  have hpushed : ∀ {o : VecOutcome}, Pushed sys A ty v op o →
      carvedBytes o.call + 2 * owed o.vec * ty.size ≤
        4 * ty.size * (o.vec.len - v.len) + 2 * owed v * ty.size := by
    intro o ho
    rw [Nat.mul_right_comm 4, ← Nat.add_mul]
    exact (owed_pushed ho).2
  by_cases hpush : op = .push
  · subst hpush
    exact hpushed pushed_push
  · by_cases htry : op = .tryPush
    · subst htry
      exact hpushed pushed_tryPush
    · have hnone : grownTo ty v op = none := by
        cases op <;> first | contradiction | rfl
      have hcarved : carvedBytes (op.apply sys A ty v).call = 0 := by
        rw [apply_call, hnone]
        rfl
      have howed := owed_kept (@cap_kept sys A ty v op hpush htry)
      rw [hcarved, Nat.zero_add, Nat.mul_right_comm 4, ← Nat.add_mul]
      unfold appended
      exact Nat.mul_le_mul_right _ (by omega)

end growth

/-- Over any calls on a vector, whatever the arena and the system allocator do, each element
appended costs two copies and each bulk call that changes the capacity one copy of the vector.
Without bulk calls, each element appended costs two copies and four elements carved. -/
theorem calls_amortised (ty : Ty) (h : Held) (ls : List (SystemAlloc × VecOp)) :
    total (Held.step ty) (copiesOf ty) h ls ≤
        2 * total (Held.step ty) (appendedOf ty) h ls + total (Held.step ty) (regrownOf ty) h ls +
          owed h.vec ∧
      ((∀ l ∈ ls, StackOp l.2 = true) →
        total (Held.step ty) (copiesOf ty) h ls ≤
            2 * total (Held.step ty) (appendedOf ty) h ls + owed h.vec ∧
          total (Held.step ty) (carvedOf ty) h ls ≤
            4 * ty.size * total (Held.step ty) (appendedOf ty) h ls + 2 * owed h.vec * ty.size) := by
  have hcopies := total_le_credit (Held.step ty) (fun _ _ => True) (copiesOf ty)
    (fun h l => 2 * appendedOf ty h l + regrownOf ty h l) (fun h => owed h.vec)
    (fun h l _ => copies_step l.2) h ls (along_of_forall _ h ls (fun _ _ => trivial))
  rw [total_linear] at hcopies
  refine ⟨le_trans (Nat.le_add_right _ _) hcopies,fun hstack => ?_⟩
  have halong := along_of_forall (p := fun l => StackOp l.2 = true) (Held.step ty) h ls hstack
  have hnone : total (Held.step ty) (regrownOf ty) h ls ≤ 0 := by
    have hfree := total_le_credit (Held.step ty) (fun _ l => StackOp l.2 = true) (regrownOf ty)
      (fun _ _ => 0) (fun _ => 0) (fun h l hl => (if_pos (Or.inl hl)).le) h ls halong
    rwa [total_zero] at hfree
  have hcarved := total_le_credit (Held.step ty) (fun _ l => StackOp l.2 = true) (carvedOf ty)
    (fun h l => 4 * ty.size * appendedOf ty h l + 0) (fun h => 2 * owed h.vec * ty.size)
    (fun h l hl => stack_step hl) h ls halong
  rw [total_linear (Held.step ty) (4 * ty.size) (appendedOf ty) (fun _ _ => 0), total_zero]
    at hcarved
  constructor
  · omega
  · exact le_trans (Nat.le_add_right _ _) hcarved

def ninePushes : List (SystemAlloc × VecOp) :=
  List.replicate 8 (noMemory,.push) ++ [(oneBlock 256 8192,.push)]

theorem calls_amortised_ninePushes : ∃ A, smallArena false 64 = some A ∧
    let h : Held := ⟨A,GrowableVec.new eightBytes⟩
    total (Held.step eightBytes) (copiesOf eightBytes) h ninePushes = 8 ∧
      total (Held.step eightBytes) (carvedOf eightBytes) h ninePushes = 192 ∧
      total (Held.step eightBytes) (appendedOf eightBytes) h ninePushes = 9 ∧
      total (Held.step eightBytes) (appendedOf eightBytes) h
        (ninePushes ++ [(noMemory,.extendFromSlice 1000)]) = 9 ∧
      total (Held.step eightBytes) (copiesOf eightBytes) h ninePushes ≤
        2 * total (Held.step eightBytes) (appendedOf eightBytes) h ninePushes + 0 := by
  obtain ⟨A,hA⟩ : ∃ A, smallArena false 64 = some A := ⟨_,rfl⟩
  have hstack : ∀ l ∈ ninePushes, StackOp l.2 = true := by decide
  refine ⟨A,hA,?_,?_,?_,?_,((calls_amortised eightBytes ⟨A,_⟩ ninePushes).2 hstack).1⟩
  all_goals
    cases hA
    decide +kernel

end FastArena.VecCosts
