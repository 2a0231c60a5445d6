import FastArena.BlockReuse

/-!
# Retrying a rolled-back transaction

A rollback keeps the blocks. Where the remembered room is right afterwards, the
same calls find them again and none is added, however often they are retried.
A request above the alignment of every block is given a block of its own each
time.
-/

set_option autoImplicit false

namespace FastArena.Retry
open FastArena.MachineWord FastArena.ByteSpan FastArena.ArenaBlock FastArena.InlineStorage
  FastArena.DropTracking FastArena.ArenaCore FastArena.ArenaInvariant FastArena.RawRequest
  FastArena.ArenaSweep FastArena.ArenaRequests FastArena.ArenaTransaction FastArena.LabelledRun
  FastArena.ArenaWorld FastArena.RoomCache FastArena.GrowableVec FastArena.VecGrowth
  FastArena.BlockReuse

def guarded (t : Transaction) (A : Arena) (c : Ask) : Arena := (t.serve c.1 A c.2).arena

def guardedAnswers (t : Transaction) : Arena → List Ask → List Ret
  | _, [] => []
  | A, c::cs => (t.serve c.1 A c.2).ret :: guardedAnswers t (guarded t A c) cs

structure Attempt where
  calls : List Ask
  boom : ℕ → ℕ → Bool

def Attempt.done (a : Attempt) (A : Arena) : Arena :=
  run (guarded (Transaction.new A).1) (Transaction.new A).2 a.calls

def Attempt.answers (a : Attempt) (A : Arena) : List Ret :=
  guardedAnswers (Transaction.new A).1 (Transaction.new A).2 a.calls

def Attempt.rollback (a : Attempt) (A : Arena) : Swept :=
  (Transaction.new A).1.drop a.boom (a.done A)

def retry (A : Arena) (a : Attempt) : Arena := (a.rollback A).arena

structure Done (t : Transaction) (A : Arena) (c : Ask) : Prop where
  grants : Grants c.1 A.blocks
  typed : c.2.Typed
  low : ∀ size align, c.2.kind.demand = some (size,align) → align ≤ minBlockAlign
  success : ∃ p, (t.serve c.1 A c.2).ret = .ptr p

/-- The rollback is not cut short by a destructor and leaves the remembered room right. -/
def Settled (A : Arena) (a : Attempt) : Prop :=
  (a.rollback A).panic = none ∧ Exact (retry A a)

section guard
variable {t : Transaction} {A : Arena}

theorem guarded_eq (hlimit : t.limit = none) (sys : SystemAlloc) (A : Arena) {r : Request}
    (hoffered : offered r = true) : t.serve sys A r = r.serve sys A := by
  rcases txn_serve t sys A r with ⟨-,heq⟩ | ⟨hno,-⟩
  · exact heq
  · have hbudget : t.budgetOk A (payload r.kind) = true := by rw [Transaction.budgetOk, hlimit]
    exact absurd ⟨hoffered,hbudget⟩ hno

theorem done_offered {c : Ask} (h : Done t A c) : offered c.2 = true := by
  obtain ⟨p,hret⟩ := h.success
  rcases txn_serve t c.1 A c.2 with ⟨⟨hoffered,-⟩,-⟩ | ⟨-,ret,hno,lost,heq⟩
  · exact hoffered
  · rw [heq] at hret
    exact absurd hret (hno p)

/-- Without a limit the guard's calls are the arena's own. -/
theorem guarded_run (hlimit : t.limit = none) (calls : List Ask) (A : Arena)
    (hoffered : ∀ c ∈ calls, offered c.2 = true) :
    run (guarded t) A calls = run served A calls ∧
      guardedAnswers t A calls = answers A calls := by
  induction calls generalizing A with
  | nil => exact ⟨rfl,rfl⟩
  | cons c calls ih =>
    have heq := guarded_eq hlimit c.1 A (hoffered c List.mem_cons_self)
    have harena : guarded t A c = served A c := congrArg Outcome.arena heq
    obtain ⟨hrun,hans⟩ := ih (served A c) (fun d hd => hoffered d (List.mem_cons_of_mem _ hd))
    constructor
    · rw [run, run, harena, hrun]
    · rw [guardedAnswers, answers, harena, hans, heq]

theorem plain_run (hlimit : t.limit = none) {calls : List Ask} {A : Arena}
    (h : Along (guarded t) (Done t) A calls) :
    Along served Plain A calls ∧ ∀ c ∈ calls, offered c.2 = true := by
  induction calls generalizing A with
  | nil => exact ⟨trivial,nofun⟩
  | cons c calls ih =>
    obtain ⟨hc,hrest⟩ := h
    have hoffered := done_offered hc
    have heq := guarded_eq hlimit c.1 A hoffered
    obtain ⟨p,hret⟩ := hc.success
    have harena : guarded t A c = served A c := congrArg Outcome.arena heq
    rw [harena] at hrest
    obtain ⟨hplain,hall⟩ := ih hrest
    rw [heq] at hret
    refine ⟨⟨⟨hc.grants,hc.typed,hc.low,p,hret⟩,hplain⟩,?_⟩
    intro d hd
    rcases List.mem_cons.mp hd with rfl | hd
    · exact hoffered
    · exact hall d hd

end guard

structure Again (F : Blocks) (A B : Arena) : Prop where
  wf : Wf B
  cached : Cached B
  len_eq : B.blocks.len = F.len
  same : Grown F B.blocks
  pos : position B = position A

section attempts
variable {F : Blocks} {A B : Arena} {a : Attempt}

theorem again_rollback (hB : Wf B) (hend : Wf (a.done B))
    (hgrown : Grown B.blocks (a.done B).blocks) (hsettled : Settled B a) :
    Again (a.done B).blocks B (retry B a) := by
  obtain ⟨hpanic,hexact⟩ := hsettled
  have hrecall : Recallable (a.done B).blocks B.checkpoint :=
    recallable_grown (recallable_checkpoint hB) hgrown
  have hlower := wf_txnDepth hend ((a.done B).txnDepth-1)
  have hdrop : a.rollback B = Arena.rewind a.boom
      { a.done B with txnDepth := (a.done B).txnDepth-1 } B.checkpoint := rfl
  unfold retry at hexact ⊢
  rw [hdrop] at hpanic hexact ⊢
  rcases (rewind_cases a.boom hlower hrecall).2.2 with ⟨hno,-,-⟩ | ⟨-,-,hrewound⟩
  · exact nomatch hpanic.symm.trans hno
  · exact ⟨hrewound.wf,cached_rewind hlower hrecall hpanic hexact,hrewound.len_eq,hrewound.grown,
      rewound_position hrewound⟩

theorem grown_of_same {blocks blocks' : Blocks} (hlen : blocks.len = F.len) (h : Grown F blocks)
    (hlen' : blocks'.len = F.len) (h' : Grown F blocks') : Grown blocks blocks' where
  len_le := (hlen.trans hlen'.symm).le
  extent_eq := by
    intro i hi
    rw [h'.extent_eq i (hlen ▸ hi), h.extent_eq i (hlen ▸ hi)]

/-- The same calls once more: they succeed, and what they need is there. -/
theorem again_retry (hA : Wf A) {calls : List Ask} (hoffered : ∀ c ∈ calls, offered c.2 = true)
    (hcalls : Along served Plain (Transaction.new A).2 calls)
    (hF : F = (run served (Transaction.new A).2 calls).blocks) (h : Again F A B)
    (hsettled : Settled B a) (hsame : a.calls.map Prod.snd = calls.map Prod.snd) :
    Again F A (retry B a) ∧ (∀ r ∈ a.answers B, ∃ p, r = .ptr p) ∧
      (a.done B).blocks.len = F.len := by
  have hoffered' : ∀ c ∈ a.calls, offered c.2 = true := by
    intro c hc
    have hmem : c.2 ∈ calls.map Prod.snd := hsame ▸ List.mem_map_of_mem hc
    obtain ⟨d,hd,heq⟩ := List.mem_map.mp hmem
    rw [← heq]
    exact hoffered d hd
  obtain ⟨hrun,hans⟩ := guarded_run (t := (Transaction.new B).1) rfl a.calls (Transaction.new B).2
    hoffered'
  have hbehind : Behind F (Transaction.new A).2 (Transaction.new B).2 :=
    ⟨wf_txnDepth h.wf _,cached_congr h.cached rfl rfl rfl rfl,h.len_eq,h.same,h.pos.le⟩
  obtain ⟨hend,hptr,-⟩ := follow_run (wf_txnDepth hA _) hcalls (by rw [hF]; exact grown_refl _)
    hbehind hsame
  have hdone : a.done B = run served (Transaction.new B).2 a.calls := hrun
  rw [← hdone] at hend
  have hagain := again_rollback h.wf hend.wf
    (grown_of_same h.len_eq h.same hend.len_eq hend.same) hsettled
  refine ⟨⟨hagain.wf,hagain.cached,hagain.len_eq.trans hend.len_eq,
    grown_trans hend.same hagain.same,hagain.pos.trans h.pos⟩,?_,hend.len_eq⟩
  intro r hr
  rw [Attempt.answers, hans] at hr
  exact hptr r hr

end attempts

structure Repeats (A : Arena) (a : Attempt) : Prop where
  success : ∀ r ∈ a.answers A, ∃ p, r = .ptr p
  during : (a.done A).stats.blockCount = A.stats.blockCount
  reserved : (retry A a).stats.bytesReserved = A.stats.bytesReserved
  count : (retry A a).stats.blockCount = A.stats.blockCount

/-- However often a list of calls at block alignments is retried, every retry succeeds in the
blocks of the first attempt, if the remembered room is right after each rollback. -/
theorem retry_keeps {s : Session} (h : s.Reached Session.Proper) {first : Attempt}
    (hcalls : Along (guarded (Transaction.new s.world.arena).1)
      (Done (Transaction.new s.world.arena).1) (Transaction.new s.world.arena).2 first.calls)
    (hfirst : Settled s.world.arena first) {retries : List Attempt}
    (hretries : Along retry (fun A a => Settled A a ∧
      a.calls.map Prod.snd = first.calls.map Prod.snd) (retry s.world.arena first) retries) :
    Along retry Repeats (retry s.world.arena first) retries ∧
      (run retry (retry s.world.arena first) retries).stats.bytesReserved =
        (retry s.world.arena first).stats.bytesReserved ∧
      (run retry (retry s.world.arena first) retries).stats.blockCount =
        (retry s.world.arena first).stats.blockCount := by
  have hwf := (session_reached h).world.wf
  generalize s.world.arena = A at *
  obtain ⟨hplain,hoffered⟩ := plain_run (t := (Transaction.new A).1) rfl hcalls
  obtain ⟨hrun,-⟩ := guarded_run (t := (Transaction.new A).1) rfl first.calls
    (Transaction.new A).2 hoffered
  have hopened : Wf (Transaction.new A).2 := wf_txnDepth hwf _
  have hdone : first.done A = run served (Transaction.new A).2 first.calls := hrun
  have hend : Wf (first.done A) := by
    rw [hdone]
    exact wf_run hopened hplain
  have hgrown : Grown A.blocks (first.done A).blocks := by
    rw [hdone]
    exact grown_run hopened hplain
  have hagain := again_rollback hwf hend hgrown hfirst
  have hF := congrArg Arena.blocks hdone
  generalize (first.done A).blocks = F at hagain hF
  generalize retry A first = B at hretries hagain
  -- every retry starts where the first attempt did, with all the blocks that one ended with
  induction retries generalizing B with
  | nil => exact ⟨trivial,rfl,rfl⟩
  | cons a retries ih =>
    obtain ⟨⟨hsettled,hsame⟩,hrest⟩ := hretries
    obtain ⟨hnext,hptr,hlen⟩ := again_retry hwf hoffered hplain hF hagain hsettled hsame
    have hreserved : (retry B a).stats.bytesReserved = B.stats.bytesReserved := by
      change (retry B a).bytesReserved = B.bytesReserved
      rw [hnext.wf.reserved, hagain.wf.reserved, totalCapacity_congr hnext.len_eq hnext.same,
        totalCapacity_congr hagain.len_eq hagain.same]
    have hcount : (retry B a).stats.blockCount = B.stats.blockCount :=
      hnext.len_eq.trans hagain.len_eq.symm
    obtain ⟨hall,hres,hcnt⟩ := ih _ hrest hnext
    exact ⟨⟨⟨hptr,hlen.trans hagain.len_eq.symm,hreserved,hcount⟩,hall⟩,hres.trans hreserved,
      hcnt.trans hcount⟩

def blockAt (capacity align base : ℕ) : SystemAlloc :=
  fun c a => if c = capacity ∧ a = align then some base else none

theorem grants_blockAt {blocks : Blocks} {capacity align base : ℕ} (hpos : 0 < base)
    (hdvd : align ∣ base) (htop : base + capacity ≤ addressTop)
    (hapart : ∀ i < blocks.len, (blocks.get i).base + (blocks.get i).capacity ≤ base) :
    Grants (blockAt capacity align base) blocks := by
  intro c a b hsys
  simp only [blockAt, Option.ite_none_right_eq_some, Option.some.injEq] at hsys
  obtain ⟨⟨rfl,rfl⟩,rfl⟩ := hsys
  exact ⟨hpos,hdvd,htop,fun i hi => apart_symm (apart_of_le (hapart i hi))⟩

def wideAttempt (sys : SystemAlloc) : Attempt := ⟨[(sys,⟨.raw 8 128,true⟩)],quiet⟩

/-- A request above the alignment of every block: the attempt succeeds and rolls back, and yet its
retry needs a new block, for which it fails without memory and reserves more with memory. -/
theorem retry_leaks : ∃ A, smallArena false 64 = some A ∧
    ∃ B, B = retry A (wideAttempt (blockAt 256 128 8192)) ∧
      Grants (blockAt 256 128 8192) A.blocks ∧ Grants (blockAt 512 128 16384) B.blocks ∧
      (wideAttempt (blockAt 256 128 8192)).answers A = [.ptr 8192] ∧
      Settled A (wideAttempt (blockAt 256 128 8192)) ∧ B.stats.blockCount = 2 ∧
      (wideAttempt noMemory).answers B = [.none] ∧
      (wideAttempt (blockAt 512 128 16384)).answers B = [.ptr 16384] ∧
      (retry B (wideAttempt (blockAt 512 128 16384))).stats.blockCount = 3 ∧
      B.stats.bytesReserved <
        (retry B (wideAttempt (blockAt 512 128 16384))).stats.bytesReserved := by
  obtain ⟨A,hA⟩ : ∃ A, smallArena false 64 = some A := ⟨_,rfl⟩
  refine ⟨A,hA,_,rfl,?_,?_,?_,⟨?_,?_⟩,?_,?_,?_,?_,?_⟩
  · apply grants_blockAt (by norm_num) (by norm_num) (by norm_num [addressTop])
    cases hA
    decide +kernel
  · apply grants_blockAt (by norm_num) (by norm_num) (by norm_num [addressTop])
    cases hA
    decide +kernel
  · cases hA
    decide +kernel
  · cases hA
    decide +kernel
  · unfold Exact roomAfter
    cases hA
    decide +kernel
  all_goals
    cases hA
    decide +kernel

def firstAttempt : Attempt := ⟨firstCalls,quiet⟩

def againAttempt : Attempt := ⟨againCalls,quiet⟩

theorem retry_keeps_twice : ∃ A, smallArena false 64 = some A ∧
    ∃ B, B = retry A firstAttempt ∧
      Along retry Repeats B [againAttempt,againAttempt] ∧
      (run retry B [againAttempt,againAttempt]).stats.blockCount = 2 := by
  obtain ⟨A,hA⟩ : ∃ A, smallArena false 64 = some A := ⟨_,rfl⟩
  have hreached : Session.Reached Session.Proper ⟨World.start A,none⟩ :=
    session_small (by norm_num) hA [] trivial
  have hcalls : Along (guarded (Transaction.new A).1) (Done (Transaction.new A).1)
      (Transaction.new A).2 firstAttempt.calls := by
    have hraw : 40 < 2^64 := by norm_num
    have hstr : 100 < 2^63 := by norm_num
    have hlow : 8 ≤ minBlockAlign := by norm_num [minBlockAlign]
    refine ⟨⟨grants_noMemory _,hraw,raw_low hlow,?_⟩,⟨?_,hstr,str_low 100,?_⟩,trivial⟩
    · cases hA
      exact ⟨4096,by decide +kernel⟩
    · apply grants_second (by norm_num [minBlockAlign]) (by norm_num [addressTop])
      all_goals
        cases hA
        decide +kernel
    · cases hA
      exact ⟨8192,by decide +kernel⟩
  have hsettled : Settled A firstAttempt ∧ Settled (retry A firstAttempt) againAttempt ∧
      Settled (retry (retry A firstAttempt) againAttempt) againAttempt := by
    unfold Settled Exact roomAfter
    cases hA
    decide +kernel
  obtain ⟨hfirst,hagain,hlast⟩ := hsettled
  have hretries : Along retry (fun A a => Settled A a ∧
      a.calls.map Prod.snd = firstAttempt.calls.map Prod.snd) (retry A firstAttempt)
      [againAttempt,againAttempt] := ⟨⟨hagain,rfl⟩,⟨hlast,rfl⟩,trivial⟩
  obtain ⟨hall,-,hcount⟩ := retry_keeps hreached hcalls hfirst hretries
  refine ⟨A,hA,_,rfl,hall,hcount.trans ?_⟩
  cases hA
  decide +kernel

end FastArena.Retry
