import FastArena.SearchCosts
import FastArena.SweepAlgebra

/-!
# What emptying the blocks costs

The loop of a rewind goes back over the blocks that requests passed over or went on
to since the checkpoint, the loop of a reset over all blocks in use since the last
one. A block passed over or gone on to pays for being emptied once by each kind of loop.
-/

set_option autoImplicit false

namespace FastArena.SweepCosts
open FastArena.MachineWord FastArena.ByteSpan FastArena.ArenaBlock FastArena.InlineStorage
  FastArena.DropTracking FastArena.ArenaCore FastArena.ArenaInvariant FastArena.RawRequest
  FastArena.ArenaSweep FastArena.ArenaRequests FastArena.ArenaTransaction FastArena.LabelledRun
  FastArena.ArenaWorld FastArena.ArenaSteps FastArena.RunningCost FastArena.RoomCache
  FastArena.SweepAlgebra FastArena.SearchCosts

/-- The blocks a request passes over or goes on to: how much further the current one is. -/
def entered (w : World) : Op → ℕ
  | .request sys r => (w.step (.request sys r)).arena.current - w.arena.current
  | .guarded sys r => (w.step (.guarded sys r)).arena.current - w.arena.current
  | _ => 0

def isReset : Op → Bool
  | .reset _ => true
  | _ => false

def reach (A : Arena) : ℕ := A.current + A.highWaterMark

structure Onward (A A' : Arena) : Prop where
  current_le : A.current ≤ A'.current
  high_le : A'.highWaterMark ≤ max A.highWaterMark A'.current

section requests
variable {A : Arena} {sys : SystemAlloc} {size align : ℕ}

theorem onward_refl (A : Arena) : Onward A A := ⟨le_refl _,le_max_left _ _⟩

theorem onward_entered {B : Arena} {idx : ℕ} (hhigh : B.highWaterMark = A.highWaterMark)
    (hidx : A.current ≤ idx) : Onward A (B.setCurrentBlock idx) := by
  have hafter : (B.setCurrentBlock idx).highWaterMark =
      if idx > B.highWaterMark then idx else B.highWaterMark := by
    unfold Arena.setCurrentBlock
    dsimp only
    split <;> rfl
  constructor
  · rw [setCurrentBlock_current]
    exact hidx
  · rw [setCurrentBlock_current, hafter, hhigh]
    split
    · exact le_max_right _ _
    · exact le_max_left _ _

theorem onward_slowWith (h : Wf A) (hpow : PowerOfTwo align) (hsize : size < 2^64)
    (oom misfit : Ret) :
    Onward A (A.slowWith (Arena.newBlockWith oom misfit sys) size align).2 := by
  cases hcall : A.slowWith (Arena.newBlockWith oom misfit sys) size align with
  | mk ret A' =>
  cases slowWith_ends oom misfit hcall with
  | resumed hr => exact onward_entered rfl (retained_some h hpow hsize hr).1.le
  | overflowed _ _ => exact ⟨le_refl _,le_max_left _ _⟩
  | refused _ _ _ => exact ⟨le_refl _,le_max_left _ _⟩
  | misfitted _ _ _ _ => exact ⟨le_refl _,le_max_left _ _⟩
  | fresh _ _ _ _ => exact onward_entered rfl (current_lt h).le

theorem onward_rawInner (h : Wf A) (hpow : PowerOfTwo align) (hsize : size < 2^64)
    (fallible : Bool) : Onward A (A.rawInner fallible sys size align).2 := by
  by_cases hfits : Fits A size align
  · rw [rawInner_fits (anchored h) sys hpow hfits fallible]
    exact ⟨le_refl _,le_max_left _ _⟩
  · rcases rawInner_slow sys fallible hfits with ⟨-,-,hraw⟩ | ⟨-,oom,misfit,-,-,hraw⟩
    · rw [hraw]
      exact onward_refl A
    · rw [hraw]
      exact onward_slowWith h hpow hsize oom misfit

theorem onward_serve (h : Wf A) {r : Request} (hr : r.Typed) :
    Onward A (r.serve sys A).arena := by
  rcases serve_arena h sys hr with ⟨-,heq⟩ | ⟨size,align,-,hpow,hsize,registry,heq⟩
  · rw [heq]
    exact onward_refl A
  · rw [heq]
    have hraw := @onward_rawInner A sys size align h hpow hsize r.fallible
    exact ⟨hraw.current_le,hraw.high_le⟩

theorem onward_guarded (h : Wf A) {r : Request} (hr : r.Typed) (t : Transaction) :
    Onward A (t.serve sys A r).arena := by
  rcases txn_serve t sys A r with ⟨-,heq⟩ | ⟨-,ret,-,lost,heq⟩
  · rw [heq]
    exact onward_serve h hr
  · rw [heq]
    exact onward_refl A

end requests

theorem onward_reach {A A' : Arena} (h : Wf A) (hon : Onward A A') :
    reach A' ≤ 2 * (A'.current - A.current) + reach A := by
  obtain ⟨hcurrent,hhigh⟩ := hon
  have hle := h.current_le
  unfold reach
  omega

section sweeps
variable {A : Arena} {cp : Checkpoint} (boom : ℕ → ℕ → Bool)

theorem reach_rewind (h : Wf A) (hcp : Recallable A.blocks cp) (hback : cp.blockIdx ≤ A.current) :
    rewindClears boom cp A + reach (A.rewind boom cp).arena ≤ reach A := by
  have hhigh := @highWaterMark_rewind A boom cp (hback.trans h.current_le)
  unfold rewindClears reach
  rw [hhigh]
  rcases (rewind_cases boom h hcp).2.2 with ⟨-,hflag,harena⟩ | ⟨-,hflag,hrewound⟩
  · rw [harena, hflag]
    exact le_of_eq (Nat.zero_add _)
  · rw [hflag, hrewound.current_eq]
    simp only [Bool.false_eq_true, if_false]
    omega

theorem reach_reset (h : Wf A) : resetClears boom A + reach (A.reset boom).arena ≤ 1 + reach A := by
  unfold resetClears reach
  rcases (reset_cases boom h).2.2 with ⟨-,hflag,harena⟩ | ⟨-,hflag,hemptied⟩
  · rw [harena, hflag]
    exact Nat.add_le_add_right (Nat.zero_le 1) _
  · have hhigh := (reset_done h hflag).2.2.1
    rw [hflag, hemptied.current_eq, hhigh]
    simp only [Bool.false_eq_true, if_false]
    omega

end sweeps

section worlds
variable {w : World}

theorem mark_behind (hstacked : Stacked w) {m : Mark} (hm : m ∈ w.marks)
    (hv : m.stamp ∈ w.valid) : m.cp.blockIdx ≤ w.arena.current := by
  rcases Prod.Lex.toLex_le_toLex.mp (hstacked.below m hm hv) with hlt | ⟨heq,-⟩
  · exact hlt.le
  · exact heq.le

theorem reach_still {w' : World} {op : Op} (hclears : clears w op = 0)
    (hreach : reach w'.arena = reach w.arena) :
    clears w op + reach w'.arena ≤
      2 * entered w op + (if isReset op then 1 else 0) + reach w.arena := by
  rw [hclears, hreach, Nat.zero_add]
  exact Nat.le_add_left _ _

theorem reach_step (h : Inv w) (hstacked : Stacked w) {op : Op} (hop : Permitted w op) :
    clears w op + reach (w.step op).arena ≤
      2 * entered w op + (if isReset op then 1 else 0) + reach w.arena := by
  obtain ⟨hhonest,hvalid⟩ := hop
  cases op with
  | request sys r =>
    have hon : Onward w.arena (w.step (.request sys r)).arena := onward_serve h.wf hhonest.2
    exact (Nat.zero_add _).le.trans (onward_reach h.wf hon)
  | guarded sys r =>
    cases hopened : w.opened with
    | nil =>
      apply reach_still rfl
      simp only [World.step, hopened]
      rfl
    | cons f rest =>
      have hon : Onward w.arena (w.step (.guarded sys r)).arena := by
        simp only [World.step, hopened]
        exact onward_guarded h.wf hhonest.2 f.txn
      exact (Nat.zero_add _).le.trans (onward_reach h.wf hon)
  | checkpoint => exact reach_still rfl rfl
  | rewind boom stamp =>
    cases hfound : w.markAt stamp with
    | none =>
      apply reach_still
      · simp only [clears, hfound]
      · simp only [World.step, hfound]
        rfl
    | some m =>
      have hm := List.mem_of_find?_eq_some hfound
      have hstamp : m.stamp = stamp := by simpa using List.find?_some hfound
      simp only [clears, World.step, hfound]
      have hback := mark_behind hstacked hm (hstamp ▸ hvalid)
      exact (reach_rewind boom h.wf (h.recallable m hm) hback).trans (Nat.le_add_left _ _)
  | reset boom => exact reach_reset boom h.wf
  | begin => exact reach_still rfl rfl
  | commit =>
    apply reach_still rfl
    simp only [World.step]
    split <;> rfl
  | rollback boom =>
    cases hopened : w.opened with
    | nil =>
      apply reach_still
      · simp only [clears, hopened]
      · simp only [World.step, hopened]
        rfl
    | cons f rest =>
      have hf : f ∈ w.opened := hopened ▸ List.mem_cons_self
      obtain ⟨hmark,-⟩ := h.opened f hf
      have hback := mark_behind hstacked hmark (hvalid f (by rw [hopened]; rfl))
      have hreach := reach_rewind boom (wf_txnDepth h.wf (w.arena.txnDepth-1))
        (h.recallable _ hmark) hback
      simp only [clears, World.step, hopened]
      rw [drop_eq h hf boom]
      exact hreach.trans (Nat.le_add_left _ _)
  | setLimit bytes =>
    apply reach_still rfl
    simp only [World.step]
    split <;> rfl

end worlds

/-- Over any run that goes back to valid checkpoints only, the loops of rewinds, rollbacks and
resets empty at most two blocks for each that requests passed over or went on to, and one for each
reset. -/
theorem sweeps_amortised {sys : SystemAlloc} {feature : Bool} {initialBytes : ℕ} {A : Arena}
    (hs : Grants sys (InlineVec.new : Blocks))
    (hA : Arena.withCapacity sys feature initialBytes = some A) {ops : List Op}
    (halong : Along World.step Permitted (World.start A) ops) :
    total World.step clears (World.start A) ops ≤
      2 * total World.step entered (World.start A) ops + ops.countP isReset := by
  obtain ⟨hwf,-,-,-,-,hregistry⟩ := wf_withCapacity hs hA
  have hstart : Inv (World.start A) :=
    inv_start hwf (by rw [hregistry, DropRegistry.entries_new])
  have hkept := along_invariant World.step Permitted (fun w => Inv w ∧ Stacked w)
    (fun w op hw hop => ⟨inv_step hw.1 hop.1,stacked_step hw.1 hw.2 hop.1 hop.2⟩)
    (World.start A) ops ⟨hstart,stacked_start A⟩ halong
  have hcosts := total_le_credit World.step _ clears
    (fun w op => 2 * entered w op + if isReset op then 1 else 0) (fun w => reach w.arena)
    (fun w op hok => reach_step hok.1.1 hok.1.2 hok.2) (World.start A) ops
    (along_and World.step _ ops hkept halong)
  have hnew : reach A = 0 := by
    obtain ⟨b,-,rfl⟩ := Option.map_eq_some_iff.mp hA
    rfl
  rw [total_linear, total_countP World.step 1 isReset, Nat.one_mul] at hcosts
  change _ ≤ _ + reach A at hcosts
  omega

theorem sweeps_amortised_oversize : ∃ A, smallArena false 64 = some A ∧
    let ops := oversizeCalls ++ [.reset quiet]
    total World.step clears (World.start A) ops = 5 ∧
      total World.step entered (World.start A) ops = 2 ∧
      total World.step clears (World.start A) ops ≤
        2 * total World.step entered (World.start A) ops + ops.countP isReset := by
  obtain ⟨A,hA⟩ : ∃ A, smallArena false 64 = some A := ⟨_,rfl⟩
  have halong : Along World.step Permitted (World.start A) (oversizeCalls ++ [.reset quiet]) :=
    (along_append World.step Permitted _ _ _).mpr ⟨oversize_along hA,⟨trivial,trivial⟩,trivial⟩
  refine ⟨A,hA,?_,?_,sweeps_amortised (grants_small (by norm_num)) hA halong⟩
  · cases hA
    decide +kernel
  · cases hA
    decide +kernel

end FastArena.SweepCosts
