import FastArena.RunningCost
import FastArena.RoomCache

/-!
# What searching the blocks costs

The slow path looks through the blocks after the current one. The remembered room is
never too much, so a search that is started finds a block and goes on to it. Every
block looked at is one that a rewind or reset emptied before.
-/

set_option autoImplicit false

namespace FastArena.SearchCosts
open FastArena.MachineWord FastArena.ByteSpan FastArena.ArenaBlock FastArena.InlineStorage
  FastArena.DropTracking FastArena.ArenaCore FastArena.ArenaInvariant FastArena.RawRequest
  FastArena.ArenaSweep FastArena.ArenaRequests FastArena.ArenaTransaction FastArena.LabelledRun
  FastArena.ArenaWorld FastArena.ArenaSteps FastArena.RunningCost FastArena.RoomCache

def fitTries (blocks : Blocks) (size align : ℕ) : ℕ → ℕ → ℕ
  | 0, _ => 0
  | n+1, i =>
    if (blocks.get i).align ≥ align ∧ ((blocks.get i).tryAlloc size align).isSome then 1
    else fitTries blocks size align n (i+1) + 1

def retainedTries (A : Arena) (size align : ℕ) : ℕ :=
  if align > minBlockAlign then 0
  else if size ≤ A.largestRemaining then
    fitTries A.blocks size align (A.blocks.len - (A.current+1)) (A.current+1)
  else 0

def rawTries (fallible : Bool) (A : Arena) (size align : ℕ) : ℕ :=
  if align > minBlockAlign then retainedTries A.finishSlowPath size align
  else
    match checkedAdd (alignUp A.curPtr align) size with
    | none => if fallible then 0 else retainedTries A.finishSlowPath size align
    | some newEnd => if newEnd ≤ A.curEnd then 0 else retainedTries A.finishSlowPath size align

def serveTries (A : Arena) (r : Request) : ℕ :=
  match r.kind.demand with
  | none => 0
  | some (size,align) => rawTries r.fallible A size align

def guardedTries (t : Transaction) (A : Arena) (r : Request) : ℕ :=
  if offered r = true ∧ t.budgetOk A (payload r.kind) = true then serveTries A r else 0

def tries (w : World) : Op → ℕ
  | .request _ r => serveTries w.arena r
  | .guarded _ r =>
    match w.opened with
    | [] => 0
    | f::_ => guardedTries f.txn w.arena r
  | _ => 0

def rewindClears (boom : ℕ → ℕ → Bool) (cp : Checkpoint) (A : Arena) : ℕ :=
  if (A.dropRegistry.runDropsUntil boom cp.dropRegistryLen).2.2 then 0
  else A.current+1 - (cp.blockIdx+1)

def resetClears (boom : ℕ → ℕ → Bool) (A : Arena) : ℕ :=
  if (A.dropRegistry.runAllDrops boom).2.2 then 0 else A.highWaterMark+1

def clears (w : World) : Op → ℕ
  | .rewind boom stamp =>
    match w.markAt stamp with
    | none => 0
    | some m => rewindClears boom m.cp w.arena
  | .reset boom => resetClears boom w.arena
  | .rollback boom =>
    match w.opened with
    | [] => 0
    | f::_ => rewindClears boom f.txn.checkpoint w.arena
  | _ => 0

section scan
variable {blocks : Blocks} {size align : ℕ}

theorem firstFit_succ (n i : ℕ) :
    ((∃ p delta b, firstFit blocks size align (n+1) i = some (i,p,delta,b)) ∧
        fitTries blocks size align (n+1) i = 1) ∨
      firstFit blocks size align (n+1) i = firstFit blocks size align n (i+1) ∧
        fitTries blocks size align (n+1) i = fitTries blocks size align n (i+1) + 1 := by
  rw [firstFit, fitTries]
  by_cases halign : (blocks.get i).align ≥ align
  · rw [if_pos halign]
    cases htry : (blocks.get i).tryAlloc size align with
    | none =>
      refine Or.inr ⟨rfl,?_⟩
      rw [if_neg]
      rintro ⟨-,hsome⟩
      cases hsome
    | some found =>
      obtain ⟨p,delta,b⟩ := found
      exact Or.inl ⟨⟨p,delta,b,rfl⟩,if_pos ⟨halign,rfl⟩⟩
  · rw [if_neg halign]
    refine Or.inr ⟨rfl,?_⟩
    rw [if_neg]
    exact fun hh => halign hh.1

theorem fitTries_some {n i j p delta : ℕ} {b : Block}
    (h : firstFit blocks size align n i = some (j,p,delta,b)) :
    fitTries blocks size align n i + i = j+1 := by
  induction n generalizing i with
  | zero => cases h
  | succ n ih =>
    rcases @firstFit_succ blocks size align n i with
      ⟨⟨p',delta',b',hfirst⟩,htries⟩ | ⟨hrest,htries⟩
    · obtain rfl : i = j := (Prod.mk.inj (Option.some.inj (hfirst.symm.trans h))).1
      omega
    · have hlater := ih (hrest.symm.trans h)
      omega

end scan

/-- What is remembered of the room after the current block is never too much. -/
def Modest (A : Arena) : Prop := A.largestRemaining ≤ roomAfter A.blocks A.current

section modest
variable {A : Arena} {size align : ℕ}

theorem modest_congr {A' : Arena} (h : Modest A) (hblocks : A'.blocks = A.blocks)
    (hcurrent : A'.current = A.current) (hrem : A'.largestRemaining = A.largestRemaining) :
    Modest A' := by
  unfold Modest
  rw [hblocks, hcurrent, hrem]
  exact h

theorem modest_finishSlowPath (h : Modest A) : Modest A.finishSlowPath := by
  have hcongr := roomAfter_congr (finishSlowPath_len A) (i := A.current)
    (fun j _ hlt => congrArg room (finishSlowPath_get A (Nat.ne_of_gt hlt)))
  exact le_trans h (le_of_eq hcongr.symm)

theorem modest_entered {B : Arena} {idx : ℕ} (h : Wf (B.setCurrentBlock idx))
    (hlargest : B.largestRemainingIdx < B.blocks.len) : Modest (B.setCurrentBlock idx) := by
  have hlaid := h.laid
  have hidx := current_lt h
  rw [setCurrentBlock_blocks] at hlaid hidx
  rw [setCurrentBlock_current] at hidx
  obtain ⟨hblocks,hcurrent,hcases⟩ := setCurrentBlock_cache B idx
  unfold Modest
  rw [hblocks, hcurrent]
  rcases hcases with ⟨hlater,-,hrem⟩ | ⟨-,hscan⟩
  · rw [hrem, wsub_room (hlaid.placed _ hlargest)]
    exact room_le_roomAfter hlater hlargest
  · have hmax := (largestFrom_blocks _ (fun j hj _ => wsub_room (hlaid.placed j hj)) hidx).1
    rw [← hscan] at hmax
    exact le_of_eq hmax

theorem modest_slowWith {sys : SystemAlloc} (h : Modest A)
    (hlargest : A.largestRemainingIdx < A.blocks.len) {oom misfit : Ret}
    (hwf : Wf (A.slowWith (Arena.newBlockWith oom misfit sys) size align).2) :
    Modest (A.slowWith (Arena.newBlockWith oom misfit sys) size align).2 := by
  have hflushed := modest_finishSlowPath h
  have hlen := finishSlowPath_len A
  cases hcall : A.slowWith (Arena.newBlockWith oom misfit sys) size align with
  | mk ret A' =>
  rw [hcall] at hwf
  cases slowWith_ends oom misfit hcall with
  | resumed _ =>
    apply modest_entered hwf
    rw [InlineVec.len_modify, hlen]
    exact hlargest
  | overflowed _ _ => exact hflushed
  | refused _ _ _ => exact modest_congr hflushed rfl rfl rfl
  | misfitted _ _ _ _ => exact modest_congr hflushed rfl rfl rfl
  | fresh _ _ _ _ =>
    apply modest_entered hwf
    rw [InlineVec.len_push, hlen]
    exact Nat.lt_succ_of_lt hlargest

theorem retainedTries_some {i p delta : ℕ} {b : Block}
    (hr : A.retained size align = some (i,p,delta,b)) :
    retainedTries A size align + A.current = i := by
  unfold Arena.retained at hr
  unfold retainedTries
  split at hr
  · cases hr
  · next halign =>
    rw [if_neg halign]
    split at hr
    · next hle =>
      rw [if_pos hle]
      have htries := fitTries_some hr
      omega
    · cases hr

theorem room_ahead {blocks : Blocks} {i : ℕ} (hnext : i+1 < blocks.len)
    (h : size ≤ roomAfter blocks i) :
    ∃ j, i < j ∧ j < blocks.len ∧ size ≤ room (blocks.get j) := by
  by_contra hsmall
  push Not at hsmall
  have hfirst := hsmall (i+1) (Nat.lt_succ_self i) hnext
  have hmax := roomAfter_le (fun j hj hlt => Nat.le_sub_one_of_lt (hsmall j hlt hj))
  omega

/-- No search is in vain: where the remembered room suffices, a block ahead has it. -/
theorem retainedTries_none (h : Wf A) (hmodest : Modest A) (hpow : PowerOfTwo align)
    (hsize : size < 2^64) (hr : A.retained size align = none) : retainedTries A size align = 0 := by
  unfold Arena.retained at hr
  unfold retainedTries
  by_cases halign : align > minBlockAlign
  · exact if_pos halign
  · rw [if_neg halign] at hr ⊢
    by_cases hle : size ≤ A.largestRemaining
    · rw [if_pos hle] at hr ⊢
      by_cases hnext : A.current+1 < A.blocks.len
      · exfalso
        obtain ⟨j,hlt,hj,hfits⟩ := room_ahead hnext (le_trans hle hmodest)
        have hplaced := h.laid.placed j hj
        have hmin : minBlockAlign ≤ (A.blocks.get j).align := hplaced.align_min
        apply firstFit_finds hlt (by omega) (by omega) _ hr
        rw [tryAlloc_empty hplaced (h.tail j hj hlt) hpow (by omega) hsize, if_pos]
        · exact Option.some_ne_none _
        · exact hfits.trans (Nat.sub_le _ _)
      · rw [show A.blocks.len - (A.current+1) = 0 by omega]
        rfl
    · exact if_neg hle

theorem rawTries_le (fallible : Bool) (A : Arena) (size align : ℕ) :
    rawTries fallible A size align ≤ retainedTries A.finishSlowPath size align := by
  unfold rawTries
  split
  · exact le_refl _
  · split
    · split
      · exact Nat.zero_le _
      · exact le_refl _
    · split
      · exact Nat.zero_le _
      · exact le_refl _

theorem rawTries_fits (h : Wf A) (hfits : Fits A size align) (fallible : Bool) :
    rawTries fallible A size align = 0 := by
  have htop : A.curEnd ≤ 2^63 := curEnd_le h
  obtain ⟨hlow,hroom⟩ := hfits
  have hadd : checkedAdd (alignUp A.curPtr align) size = some (alignUp A.curPtr align + size) := by
    rw [checkedAdd, if_pos (by omega)]
  unfold rawTries
  rw [if_neg (by omega), hadd]
  exact if_pos hroom

theorem rawTries_rejected (hover : Overflows A size align) : rawTries true A size align = 0 := by
  unfold rawTries
  rw [if_neg (Nat.not_lt.mpr hover.1), hover.2]
  rfl

end modest

def ahead (A : Arena) : ℕ := A.blocks.len - (A.current+1)

structure Searched (A A' : Arena) (n : ℕ) : Prop where
  modest : Modest A'
  paid : n + ahead A' ≤ ahead A

section requests
variable {A : Arena} {sys : SystemAlloc} {size align : ℕ}

theorem searched_still {A' : Arena} (h : Modest A) (hblocks : A'.blocks = A.blocks)
    (hcurrent : A'.current = A.current) (hrem : A'.largestRemaining = A.largestRemaining) :
    Searched A A' 0 := by
  refine ⟨modest_congr h hblocks hcurrent hrem,?_⟩
  unfold ahead
  rw [hblocks, hcurrent, Nat.zero_add]

theorem searched_slow (h : Wf A) (hs : Grants sys A.blocks) (hmodest : Modest A)
    (hpow : PowerOfTwo align) (hsize : size < 2^64) (fallible : Bool) (hfits : ¬ Fits A size align)
    (hslow : ¬ (fallible = true ∧ Overflows A size align)) {oom : Ret} (misfit : Ret)
    (hoom : oom = .none ∧ fallible = true ∨ ∃ message, oom = .panic message) :
    Searched A (A.slowWith (Arena.newBlockWith oom misfit sys) size align).2
      (retainedTries A.finishSlowPath size align) := by
  have hend := slow_end h hs hpow hsize fallible hfits hslow oom misfit hoom
  have hwf : Wf (A.slowWith (Arena.newBlockWith oom misfit sys) size align).2 := by
    rcases rawEnd_cases h hpow hend with ⟨p,-,hcarved⟩ | ⟨-,hunmoved⟩
    · exact hcarved.wf
    · exact hunmoved.wf
  refine ⟨modest_slowWith hmodest h.largest_lt hwf,?_⟩
  have hlen := finishSlowPath_len A
  have hflushed := wf_finishSlowPath h
  have hnone := retainedTries_none hflushed (modest_finishSlowPath hmodest) hpow hsize
  cases hcall : A.slowWith (Arena.newBlockWith oom misfit sys) size align with
  | mk ret A' =>
  unfold ahead
  cases slowWith_ends oom misfit hcall with
  | resumed hr =>
    have htries := retainedTries_some ((retained_finishSlowPath A size align).trans hr)
    have hi := (retained_some h hpow hsize hr).2.1
    rw [setCurrentBlock_blocks, setCurrentBlock_current, InlineVec.len_modify, hlen]
    change _ + A.current = _ at htries
    omega
  | overflowed hr _ =>
    rw [hnone ((retained_finishSlowPath A size align).trans hr), hlen, Nat.zero_add]
    exact le_refl _
  | refused hr _ _ =>
    rw [hnone ((retained_finishSlowPath A size align).trans hr), Nat.zero_add]
    exact le_of_eq (congrArg (· - (A.current+1)) hlen)
  | misfitted hr _ _ _ =>
    rw [hnone ((retained_finishSlowPath A size align).trans hr), Nat.zero_add]
    exact le_of_eq (congrArg (· - (A.current+1)) hlen)
  | fresh hr _ _ _ =>
    rw [hnone ((retained_finishSlowPath A size align).trans hr), setCurrentBlock_blocks,
      setCurrentBlock_current, InlineVec.len_push, hlen]
    omega

theorem searched_rawInner (h : Wf A) (hs : Grants sys A.blocks) (hmodest : Modest A)
    (hpow : PowerOfTwo align) (hsize : size < 2^64) (fallible : Bool) :
    Searched A (A.rawInner fallible sys size align).2 (rawTries fallible A size align) := by
  by_cases hfits : Fits A size align
  · rw [rawInner_fits (anchored h) sys hpow hfits fallible, rawTries_fits h hfits]
    exact searched_still hmodest rfl rfl rfl
  · rcases rawInner_slow sys fallible hfits with
      ⟨rfl,hover,hraw⟩ | ⟨hslow,oom,misfit,hoom,-,hraw⟩
    · rw [hraw, rawTries_rejected hover]
      exact searched_still hmodest rfl rfl rfl
    · rw [hraw]
      obtain ⟨hafter,hpaid⟩ :=
        searched_slow h hs hmodest hpow hsize fallible hfits hslow misfit hoom
      exact ⟨hafter,(Nat.add_le_add_right (rawTries_le fallible A size align) _).trans hpaid⟩

theorem serve_arena (h : Wf A) (sys : SystemAlloc) {r : Request} (hr : r.Typed) :
    (r.kind.demand = none ∧ (r.serve sys A).arena = A) ∨
      ∃ size align, r.kind.demand = some (size,align) ∧ PowerOfTwo align ∧ size < 2^64 ∧
        ∃ registry, (r.serve sys A).arena =
          { (A.rawInner r.fallible sys size align).2 with dropRegistry := registry } := by
  rcases serve_demand h sys hr with ⟨hd,ret,drops,heq⟩ | ⟨size,align,hd,heq⟩
  · exact Or.inl ⟨hd,by rw [heq]; rfl⟩
  · obtain ⟨hpow,hsize⟩ := demand_typed hr hd
    refine Or.inr ⟨size,align,hd,hpow,hsize,?_⟩
    rw [heq]
    cases A.rawInner r.fallible sys size align with
    | mk ret A₁ =>
    cases ret with
    | ptr p =>
      obtain ⟨registry,harena,-,-⟩ := (filled_fills hd p A₁).arena_eq
      exact ⟨registry,harena⟩
    | none => exact ⟨A₁.dropRegistry,rfl⟩
    | panic message => exact ⟨A₁.dropRegistry,rfl⟩

theorem searched_serve (h : Wf A) (hs : Grants sys A.blocks) (hmodest : Modest A) {r : Request}
    (hr : r.Typed) : Searched A (r.serve sys A).arena (serveTries A r) := by
  unfold serveTries
  rcases serve_arena h sys hr with ⟨hd,heq⟩ | ⟨size,align,hd,hpow,hsize,registry,heq⟩
  · rw [hd, heq]
    exact searched_still hmodest rfl rfl rfl
  · have hraw := searched_rawInner h hs hmodest hpow hsize r.fallible
    rw [hd, heq]
    exact ⟨modest_congr hraw.modest rfl rfl rfl,hraw.paid⟩

theorem searched_guarded (h : Wf A) (hs : Grants sys A.blocks) (hmodest : Modest A) {r : Request}
    (hr : r.Typed) (t : Transaction) : Searched A (t.serve sys A r).arena (guardedTries t A r) := by
  unfold guardedTries
  rcases txn_serve t sys A r with ⟨hok,heq⟩ | ⟨hno,ret,-,lost,heq⟩
  · rw [if_pos hok, heq]
    exact searched_serve h hs hmodest hr
  · rw [if_neg hno, heq]
    exact searched_still hmodest rfl rfl rfl

end requests

structure Emptying (A A' : Arena) (n : ℕ) : Prop where
  modest : Modest A'
  credit : ahead A' ≤ n + ahead A

section sweeps
variable {A : Arena} {cp : Checkpoint} (boom : ℕ → ℕ → Bool)

theorem modest_rewind (h : Wf A) (hmodest : Modest A) (hcp : Recallable A.blocks cp) :
    Modest (A.rewind boom cp).arena := by
  have hwf := (wf_rewind h boom hcp).1
  unfold Arena.rewind at hwf ⊢
  rw [if_pos hcp.idx_lt] at hwf ⊢
  dsimp only at hwf ⊢
  split
  · exact modest_congr hmodest rfl rfl rfl
  · next hflag =>
    rw [if_neg hflag] at hwf
    apply modest_entered hwf
    rw [InlineVec.len_modify, len_clearOffsets]
    exact h.largest_lt

theorem emptying_rewind (h : Wf A) (hmodest : Modest A) (hcp : Recallable A.blocks cp) :
    Emptying A (A.rewind boom cp).arena (rewindClears boom cp A) := by
  refine ⟨modest_rewind boom h hmodest hcp,?_⟩
  unfold rewindClears ahead
  rcases (rewind_cases boom h hcp).2.2 with ⟨-,hflag,harena⟩ | ⟨-,hflag,hrewound⟩
  · rw [harena, hflag]
    exact Nat.le_add_left _ _
  · rw [hflag, hrewound.len_eq, hrewound.current_eq]
    simp only [Bool.false_eq_true, if_false]
    omega

theorem emptying_reset (h : Wf A) (hmodest : Modest A) :
    Emptying A (A.reset boom).arena (resetClears boom A) := by
  have hcur := h.current_le
  unfold resetClears
  rcases (reset_cases boom h).2.2 with ⟨-,hflag,harena⟩ | ⟨hdone,hflag,hemptied⟩
  · refine ⟨?_,?_⟩
    · rw [harena]
      exact modest_congr hmodest rfl rfl rfl
    · unfold ahead
      rw [harena]
      exact Nat.le_add_left _ _
  · refine ⟨(cached_reset_done h hdone).exact.le,?_⟩
    unfold ahead
    rw [hflag, hemptied.len_eq, hemptied.current_eq]
    simp only [Bool.false_eq_true, if_false]
    omega

end sweeps

structure Paid (w w' : World) (op : Op) : Prop where
  modest : Modest w'.arena
  paid : tries w op + ahead w'.arena ≤ clears w op + ahead w.arena

section worlds
variable {w : World}

theorem paid_still {w' : World} {op : Op} (h : Modest w.arena) (htries : tries w op = 0)
    (hblocks : w'.arena.blocks = w.arena.blocks) (hcurrent : w'.arena.current = w.arena.current)
    (hrem : w'.arena.largestRemaining = w.arena.largestRemaining) : Paid w w' op := by
  refine ⟨modest_congr h hblocks hcurrent hrem,?_⟩
  unfold ahead
  rw [htries, hblocks, hcurrent, Nat.zero_add]
  exact Nat.le_add_left _ _

theorem paid_searched {w' : World} {op : Op} (h : Searched w.arena w'.arena (tries w op)) :
    Paid w w' op :=
  ⟨h.modest,h.paid.trans (Nat.le_add_left _ _)⟩

theorem paid_emptying {w' : World} {op : Op} (htries : tries w op = 0)
    (h : Emptying w.arena w'.arena (clears w op)) : Paid w w' op := by
  refine ⟨h.modest,?_⟩
  rw [htries, Nat.zero_add]
  exact h.credit

theorem paid_step (h : Inv w) (hmodest : Modest w.arena) {op : Op} (hop : Honest w op) :
    Paid w (w.step op) op := by
  cases op with
  | request sys r => exact paid_searched (searched_serve h.wf hop.1 hmodest hop.2)
  | guarded sys r =>
    cases hopened : w.opened with
    | nil =>
      apply paid_still hmodest
      · simp only [tries, hopened]
      all_goals
        simp only [World.step, hopened]
        rfl
    | cons f rest =>
      apply paid_searched
      simp only [World.step, tries, hopened]
      exact searched_guarded h.wf hop.1 hmodest hop.2 f.txn
  | checkpoint => exact paid_still hmodest rfl rfl rfl rfl
  | rewind boom stamp =>
    cases hfound : w.markAt stamp with
    | none =>
      apply paid_still hmodest rfl
      all_goals
        simp only [World.step, hfound]
        rfl
    | some m =>
      apply paid_emptying rfl
      simp only [World.step, clears, hfound]
      exact emptying_rewind boom h.wf hmodest
        (h.recallable m (List.mem_of_find?_eq_some hfound))
  | reset boom => exact paid_emptying rfl (emptying_reset boom h.wf hmodest)
  | begin => exact paid_still hmodest rfl rfl rfl rfl
  | commit =>
    apply paid_still hmodest rfl
    all_goals
      simp only [World.step]
      split <;> rfl
  | rollback boom =>
    cases hopened : w.opened with
    | nil =>
      apply paid_still hmodest rfl
      all_goals
        simp only [World.step, hopened]
        rfl
    | cons f rest =>
      have hf : f ∈ w.opened := hopened ▸ List.mem_cons_self
      apply paid_emptying rfl
      simp only [World.step, clears, hopened]
      rw [drop_eq h hf boom]
      have hlower : Modest { w.arena with txnDepth := w.arena.txnDepth-1 } :=
        modest_congr hmodest rfl rfl rfl
      have hemptying := emptying_rewind boom (wf_txnDepth h.wf _) hlower
        (h.recallable _ (h.opened f hf).1)
      exact ⟨hemptying.modest,hemptying.credit⟩
  | setLimit bytes =>
    apply paid_still hmodest rfl
    all_goals
      simp only [World.step]
      split <;> rfl

end worlds

theorem modest_withCapacity {sys : SystemAlloc} {feature : Bool} {initialBytes : ℕ} {A : Arena}
    (hA : Arena.withCapacity sys feature initialBytes = some A) : Modest A :=
  (cached_withCapacity hA).exact.le

theorem ahead_withCapacity {sys : SystemAlloc} {feature : Bool} {initialBytes : ℕ} {A : Arena}
    (hA : Arena.withCapacity sys feature initialBytes = some A) : ahead A = 0 := by
  obtain ⟨b,-,rfl⟩ := Option.map_eq_some_iff.mp hA
  unfold ahead
  rw [InlineVec.len_push, InlineVec.len_new]
  rfl

/-- Over any run, stale checkpoints and panicking destructors included, the searches of the slow
path look at no more blocks than the loops of rewinds, rollbacks and resets have emptied. -/
theorem searches_paid {sys : SystemAlloc} {feature : Bool} {initialBytes : ℕ} {A : Arena}
    (hs : Grants sys (InlineVec.new : Blocks))
    (hA : Arena.withCapacity sys feature initialBytes = some A) {ops : List Op}
    (halong : Along World.step Honest (World.start A) ops) :
    total World.step tries (World.start A) ops ≤ total World.step clears (World.start A) ops := by
  obtain ⟨hwf,-,-,-,-,hregistry⟩ := wf_withCapacity hs hA
  have hstart : Inv (World.start A) :=
    inv_start hwf (by rw [hregistry, DropRegistry.entries_new])
  have hkept := along_invariant World.step Honest (fun w => Inv w ∧ Modest w.arena)
    (fun w op hw hop => ⟨inv_step hw.1 hop,(paid_step hw.1 hw.2 hop).modest⟩)
    (World.start A) ops ⟨hstart,modest_withCapacity hA⟩ halong
  have hcosts := total_le_credit World.step _ tries clears (fun w => ahead w.arena)
    (fun w op hok => (paid_step hok.1.1 hok.1.2 hok.2).paid) (World.start A) ops
    (along_and World.step _ ops hkept halong)
  change _ ≤ _ + ahead A at hcosts
  rw [ahead_withCapacity hA] at hcosts
  exact le_trans (Nat.le_add_right _ _) hcosts

theorem searches_paid_oversize : ∃ A, smallArena false 64 = some A ∧
    let ops := oversizeCalls ++ [.request noMemory ⟨.raw 100 1,true⟩]
    total World.step tries (World.start A) ops = 1 ∧
      total World.step clears (World.start A) ops = 2 ∧
      total World.step tries (World.start A) ops ≤ total World.step clears (World.start A) ops := by
  obtain ⟨A,hA⟩ : ∃ A, smallArena false 64 = some A := ⟨_,rfl⟩
  have hhonest : Along World.step Honest (World.start A) oversizeCalls :=
    along_mono World.step Permitted (fun _ _ h => h.1) _ _ (oversize_along hA)
  have halong : Along World.step Honest (World.start A)
      (oversizeCalls ++ [.request noMemory ⟨.raw 100 1,true⟩]) := by
    apply (along_append World.step Honest _ _ _).mpr
    exact ⟨hhonest,⟨grants_noMemory _,show 100 < 2^64 by norm_num⟩,trivial⟩
  refine ⟨A,hA,?_,?_,searches_paid (grants_small (by norm_num)) hA halong⟩
  · cases hA
    decide +kernel
  · cases hA
    decide +kernel

end FastArena.SearchCosts
