import FastArena.ArenaSteps
import FastArena.HeapBuffer

/-!
# The block list's own buffer

The ninth block does not fit inline, and the list asks the system allocator for
a heap buffer, then for one twice as large each time that is full. A refusal is
a panic, in the fallible calls as well, and it comes when the counters already
include the block that is lost. The calls of an arena whose list may be refused
a buffer, and the runs of them.
-/

set_option autoImplicit false

namespace FastArena.ListBuffer
open FastArena.MachineWord FastArena.ArenaBlock FastArena.InlineStorage FastArena.DropTracking
  FastArena.ArenaCore FastArena.ArenaInvariant FastArena.RawRequest FastArena.ArenaSweep
  FastArena.ArenaRequests FastArena.ArenaTransaction FastArena.LabelledRun FastArena.ArenaWorld
  FastArena.ArenaSteps

def blockTy : Ty := ⟨40,8,true,powerOfTwo_eight,⟨5,rfl⟩,by norm_num⟩

def pushPanic (sys : SystemAlloc) (blocks : Blocks) : Option String :=
  HeapBuffer.pushPanic blocksInlineCap sys blockTy blocks.raw

-- `alloc_new_block` and `try_alloc_new_block` when the push may panic. The counters have been
-- updated by then, and the block is freed as the panic unwinds.
def newBlock (oom misfit : Ret) (sys : SystemAlloc) (A : Arena) (size align : ℕ) : Ret × Arena :=
  match A.nextBlockFor size align with
  | none => (.panic "allocation size overflow",A)
  | some (blockSize,A) =>
    match Block.tryNew sys blockSize align with
    | none => (oom,A)
    | some block =>
      match block.tryAlloc size align with
      | none => (misfit,A)
      | some (p,delta,block) =>
        let A := { A with
          bytesReserved := wadd A.bytesReserved blockSize
          bytesAllocated := wadd A.bytesAllocated delta }
        match pushPanic sys A.blocks with
        | some message => (.panic message,A)
        | none =>
          let A := { A with blocks := A.blocks.push block }
          (.ptr p,A.setCurrentBlock (A.blocks.len-1))

def allocSlow (sys : SystemAlloc) : Arena → ℕ → ℕ → Ret × Arena :=
  Arena.slowWith (newBlock (.panic "arena: out of memory") (.panic "fresh block must satisfy request")
    sys)

def allocSlowTry (sys : SystemAlloc) : Arena → ℕ → ℕ → Ret × Arena :=
  Arena.slowWith (newBlock .none .none sys)

def rawInner : Bool → SystemAlloc → Arena → ℕ → ℕ → Ret × Arena
  | false, sys => Arena.rawInnerWith (allocSlow sys) (allocSlow sys)
  | true, sys => Arena.rawInnerWith (allocSlowTry sys) (fun A _ _ => (.none,A))

-- Any of the allocating methods: they all have the shape of `serve_demand`.
def serve (sys : SystemAlloc) (A : Arena) (r : Request) : Outcome :=
  match r.kind.demand with
  | none => r.serve sys A
  | some (size,align) =>
    onRaw (rawInner r.fallible sys A size align) size align r.kind.lost r.kind.filled

def guardedServe (t : Transaction) (sys : SystemAlloc) (A : Arena) (r : Request) : Outcome :=
  if offered r = true ∧ t.budgetOk A (payload r.kind) = true then serve sys A r
  else t.serve sys A r

def step (w : World) : Op → World
  | .request sys r => w.take (serve sys w.arena r)
  | .guarded sys r =>
    match w.opened with
    | [] => w.tick
    | f::_ => w.take (guardedServe f.txn sys w.arena r)
  | op => w.step op

/-- The request needs a new block, the system grants it, and the list has no place for it. -/
def Lost (fallible : Bool) (sys : SystemAlloc) (A : Arena) (size align : ℕ) : Prop :=
  ¬ Fits A size align ∧ ¬ (fallible = true ∧ Overflows A size align) ∧
    A.retained size align = none ∧ ¬ Refused sys A size align ∧ pushPanic sys A.blocks ≠ none

instance (fallible : Bool) (sys : SystemAlloc) (A : Arena) (size align : ℕ) :
    Decidable (Lost fallible sys A size align) := inferInstanceAs (Decidable (_ ∧ _))

section raw
variable {A : Arena} {sys : SystemAlloc} {size align : ℕ} {fallible : Bool}

theorem pushPanic_modify (sys : SystemAlloc) (blocks : Blocks) (i : ℕ) (f : Block → Block) :
    pushPanic sys (blocks.modify i f) = pushPanic sys blocks := by
  by_cases hi : i < blocks.len
  · have heq : blocks.modify i f =
        ⟨blocks.raw.modify i f,RawVec.modify_wf blocks.wf i f hi⟩ := dif_pos hi
    obtain ⟨hheap,hcells⟩ := RawVec.modify_heap blocks.wf i f
    rw [heq]
    exact HeapBuffer.pushPanic_congr hheap (RawVec.modify_len _ _ _) hcells
  · have heq : blocks.modify i f = blocks := dif_neg hi
    rw [heq]

theorem pushPanic_finishSlowPath (sys : SystemAlloc) (A : Arena) :
    pushPanic sys A.finishSlowPath.blocks = pushPanic sys A.blocks := pushPanic_modify _ _ _ _

theorem newBlock_eq (h : pushPanic sys A.blocks = none) (oom misfit : Ret) :
    newBlock oom misfit sys A size align = A.newBlockWith oom misfit sys size align := by
  unfold newBlock Arena.newBlockWith
  cases hn : A.nextBlockFor size align with
  | none => rfl
  | some next =>
    obtain ⟨blockSize,B⟩ := next
    have hblocks : B.blocks = A.blocks := by
      obtain ⟨worst,-,heq⟩ := Option.map_eq_some_iff.mp hn
      rw [← (Prod.mk.inj heq).2]
    dsimp only
    cases Block.tryNew sys blockSize align with
    | none => rfl
    | some block =>
      dsimp only
      cases block.tryAlloc size align with
      | none => rfl
      | some found =>
        dsimp only
        rw [hblocks, h]

theorem newBlock_refused (oom misfit : Ret) (h : (A.nextBlockFor size align).bind
    (fun r => Block.tryNew sys r.1 align) = none) :
    newBlock oom misfit sys A size align = A.newBlockWith oom misfit sys size align := by
  unfold newBlock Arena.newBlockWith
  cases hn : A.nextBlockFor size align with
  | none => rfl
  | some next =>
    rw [hn, Option.bind_some] at h
    dsimp only
    rw [h]

theorem refused_finishSlowPath (sys : SystemAlloc) (A : Arena) (size align : ℕ) :
    (A.finishSlowPath.nextBlockFor size align).bind (fun r => Block.tryNew sys r.1 align) =
      (A.nextBlockFor size align).bind (fun r => Block.tryNew sys r.1 align) := by
  rw [nextBlockFor_finishSlowPath, Option.bind_map]
  rfl

theorem slow_eq (oom misfit : Ret) (h : A.retained size align = none →
    Refused sys A size align ∨ pushPanic sys A.blocks = none) :
    A.slowWith (newBlock oom misfit sys) size align =
      A.slowWith (Arena.newBlockWith oom misfit sys) size align := by
  unfold Arena.slowWith
  dsimp only
  rw [retained_finishSlowPath]
  cases hfound : A.retained size align with
  | some found => rfl
  | none =>
    dsimp only
    rcases h hfound with hrefused | hroom
    · apply newBlock_refused
      rw [refused_finishSlowPath]
      exact hrefused.2
    · apply newBlock_eq
      rw [pushPanic_finishSlowPath]
      exact hroom

theorem rawInnerWith_congr {slow overflow slow' overflow' : Arena → ℕ → ℕ → Ret × Arena}
    (hslow : ¬ Fits A size align → ¬ Overflows A size align →
      slow A size align = slow' A size align)
    (hoverflow : Overflows A size align → overflow A size align = overflow' A size align) :
    A.rawInnerWith slow overflow size align = A.rawInnerWith slow' overflow' size align := by
  rcases @rawInnerWith_branches A A rfl rfl slow overflow slow' overflow' size align with
    ⟨p,q,heq,heq'⟩ | ⟨hfits,hover,heq,heq'⟩ | ⟨hover,heq,heq'⟩
  · rw [heq, heq']
  · rw [heq, heq']
    exact hslow hfits hover
  · rw [heq, heq']
    exact hoverflow hover

theorem fits_not_overflows (hend : A.curEnd < 2^64) (hover : Overflows A size align) :
    ¬ Fits A size align := by
  intro hfits
  have hroom := hfits.2
  have hnone := hover.2
  rw [checkedAdd, if_pos (by omega)] at hnone
  cases hnone

/-- Unless a block is lost, the raw allocator is the one of the model without a buffer. -/
theorem rawInner_eq (hend : A.curEnd < 2^64) (h : ¬ Lost fallible sys A size align) :
    rawInner fallible sys A size align = A.rawInner fallible sys size align := by
  have hkept : ¬ Fits A size align → ¬ (fallible = true ∧ Overflows A size align) →
      A.retained size align = none →
        Refused sys A size align ∨ pushPanic sys A.blocks = none := by
    intro hfits hover hnone
    by_contra hno
    obtain ⟨hserved,hpanic⟩ := not_or.mp hno
    exact h ⟨hfits,hover,hnone,hserved,hpanic⟩
  cases fallible with
  | false =>
    apply rawInnerWith_congr
    · exact fun hfits hover => slow_eq _ _ (hkept hfits (fun hh => hover hh.2))
    · exact fun hover => slow_eq _ _ (hkept (fits_not_overflows hend hover) nofun)
  | true =>
    apply rawInnerWith_congr
    · exact fun hfits hover => slow_eq _ _ (hkept hfits (fun hh => hover hh.2))
    · exact fun _ => rfl

structure Spoilt (A : Arena) (size : ℕ) (A' : Arena) (n k : ℕ) : Prop where
  growth_min : minBlockSize ≤ n
  growth_max : n ≤ maxBlockSize
  lost_pos : 0 < k
  lost_le : k ≤ 2^63
  after : A' = { A.finishSlowPath with
    nextBlockSize := n
    bytesReserved := wadd A.bytesReserved k
    bytesAllocated := wadd A.finishSlowPath.bytesAllocated size }

theorem slow_lost (hgrowth : minBlockSize ≤ A.nextBlockSize) (hs : Grants sys A.blocks)
    (hpow : PowerOfTwo align) (hsize : size < 2^64) (hnone : A.retained size align = none)
    (hserved : ¬ Refused sys A size align) (hpanic : pushPanic sys A.blocks ≠ none)
    (oom misfit : Ret) : ∃ message A' n k,
      A.slowWith (newBlock oom misfit sys) size align = (.panic message,A') ∧
        Spoilt A size A' n k := by
  obtain ⟨message,hmessage⟩ := Option.ne_none_iff_exists'.mp hpanic
  cases hn : A.nextBlockFor size align with
  | none => exact absurd ⟨hnone,by rw [hn]; rfl⟩ hserved
  | some next =>
    obtain ⟨blockSize,B⟩ := next
    obtain ⟨hfit,n,hmin,hmax,rfl⟩ := nextBlockFor_some hgrowth hn
    cases hnew : Block.tryNew sys blockSize align with
    | none => exact absurd ⟨hnone,by rw [hn]; exact hnew⟩ hserved
    | some b =>
      obtain ⟨hpos,hle,-,-⟩ := tryNew_some hnew
      obtain ⟨-,-,-,-,htry⟩ := freshBlock hs hpow hsize hfit hnew
      refine ⟨message,_,n,blockSize,?_,hmin,hmax,hpos,by omega,rfl⟩
      unfold Arena.slowWith
      dsimp only
      rw [retained_finishSlowPath, hnone]
      dsimp only
      unfold newBlock
      rw [nextBlockFor_finishSlowPath, hn]
      dsimp only [Option.map_some]
      rw [hnew]
      dsimp only
      rw [htry]
      dsimp only
      rw [pushPanic_finishSlowPath, hmessage]
      rfl

theorem rawInner_lost (hgrowth : minBlockSize ≤ A.nextBlockSize) (hs : Grants sys A.blocks)
    (hpow : PowerOfTwo align) (hsize : size < 2^64) (h : Lost fallible sys A size align) :
    ∃ message A' n k, rawInner fallible sys A size align = (.panic message,A') ∧
      Spoilt A size A' n k := by
  obtain ⟨hfits,hover,hnone,hserved,hpanic⟩ := h
  have hslow := slow_lost hgrowth hs hpow hsize hnone hserved hpanic
  cases fallible with
  | false =>
    have hraw : rawInner false sys A size align = allocSlow sys A size align :=
      (rawInnerWith_not_fits hfits _ _).trans (ite_self _)
    rw [hraw]
    exact hslow _ _
  | true =>
    have hraw : rawInner true sys A size align = allocSlowTry sys A size align :=
      (rawInnerWith_not_fits hfits (allocSlowTry sys) (fun A _ _ => (.none,A))).trans
        (if_neg (fun hh => hover ⟨rfl,hh⟩))
    rw [hraw]
    exact hslow _ _

end raw

/-- The arena with its count of reserved bytes put right: no call reads it. -/
def mended (A : Arena) : Arena := { A with bytesReserved := totalCapacity A.blocks }

section reserved
variable {A : Arena} {sys : SystemAlloc} {size align : ℕ}

theorem mended_eq {r : ℕ} (h : Wf { A with bytesReserved := r }) :
    mended A = { A with bytesReserved := r } := by
  obtain rfl : r = totalCapacity A.blocks := h.reserved
  rfl

theorem setCurrentBlock_reserved (A : Arena) (idx r : ℕ) :
    Arena.setCurrentBlock { A with bytesReserved := r } idx =
      { A.setCurrentBlock idx with bytesReserved := r } := by
  unfold Arena.setCurrentBlock
  dsimp only
  split <;> rfl

theorem nextBlockFor_reserved (A : Arena) (size align r : ℕ) :
    Arena.nextBlockFor { A with bytesReserved := r } size align =
      (A.nextBlockFor size align).map (fun s => (s.1,{ s.2 with bytesReserved := r })) := by
  unfold Arena.nextBlockFor
  rw [Option.map_map]
  rfl

theorem newBlockWith_reserved (oom misfit : Ret) (r : ℕ) :
    ∃ r', Arena.newBlockWith oom misfit sys { A with bytesReserved := r } size align =
      ((A.newBlockWith oom misfit sys size align).1,
        { (A.newBlockWith oom misfit sys size align).2 with bytesReserved := r' }) := by
  unfold Arena.newBlockWith
  rw [nextBlockFor_reserved]
  cases hn : A.nextBlockFor size align with
  | none => exact ⟨r,rfl⟩
  | some next =>
    dsimp only [Option.map_some]
    cases Block.tryNew sys next.1 align with
    | none => exact ⟨r,rfl⟩
    | some block =>
      dsimp only
      cases block.tryAlloc size align with
      | none => exact ⟨r,rfl⟩
      | some found =>
        refine ⟨wadd r next.1,?_⟩
        dsimp only
        rw [← setCurrentBlock_reserved]

theorem slowWith_reserved (oom misfit : Ret) (r : ℕ) :
    ∃ r', Arena.slowWith (Arena.newBlockWith oom misfit sys) { A with bytesReserved := r }
        size align =
      ((A.slowWith (Arena.newBlockWith oom misfit sys) size align).1,
        { (A.slowWith (Arena.newBlockWith oom misfit sys) size align).2 with
          bytesReserved := r' }) := by
  have hfinish : Arena.finishSlowPath { A with bytesReserved := r } =
      { A.finishSlowPath with bytesReserved := r } := rfl
  have hretained : Arena.retained { A.finishSlowPath with bytesReserved := r } size align =
      A.finishSlowPath.retained size align := rfl
  unfold Arena.slowWith
  rw [hfinish]
  dsimp only
  rw [hretained]
  cases A.finishSlowPath.retained size align with
  | some found =>
    refine ⟨r,?_⟩
    dsimp only
    rw [← setCurrentBlock_reserved]
  | none => exact newBlockWith_reserved oom misfit r

theorem rawInner_reserved (fallible : Bool) (r : ℕ) :
    ∃ r', Arena.rawInner fallible sys { A with bytesReserved := r } size align =
      ((A.rawInner fallible sys size align).1,
        { (A.rawInner fallible sys size align).2 with bytesReserved := r' }) := by
  have hpath : ∀ {slow overflow : Arena → ℕ → ℕ → Ret × Arena},
      (∃ r', slow { A with bytesReserved := r } size align =
        ((slow A size align).1,{ (slow A size align).2 with bytesReserved := r' })) →
      (∃ r', overflow { A with bytesReserved := r } size align =
        ((overflow A size align).1,{ (overflow A size align).2 with bytesReserved := r' })) →
      ∃ r', Arena.rawInnerWith slow overflow { A with bytesReserved := r } size align =
        ((A.rawInnerWith slow overflow size align).1,
          { (A.rawInnerWith slow overflow size align).2 with bytesReserved := r' }) := by
    intro slow overflow hslow hoverflow
    rcases @rawInnerWith_branches A { A with bytesReserved := r } rfl rfl slow overflow slow
      overflow size align with ⟨p,q,heq,heq'⟩ | ⟨-,-,heq,heq'⟩ | ⟨-,heq,heq'⟩
    · rw [heq, heq']
      exact ⟨r,rfl⟩
    · rw [heq, heq']
      exact hslow
    · rw [heq, heq']
      exact hoverflow
  cases fallible with
  | false => exact hpath (slowWith_reserved _ _ r) (slowWith_reserved _ _ r)
  | true => exact @hpath _ (fun A _ _ => (.none,A)) (slowWith_reserved _ _ r) ⟨r,rfl⟩

theorem rewind_reserved (boom : ℕ → ℕ → Bool) (cp : Checkpoint) (r : ℕ) :
    (Arena.rewind boom { A with bytesReserved := r } cp).arena =
      { (A.rewind boom cp).arena with bytesReserved := r } := by
  unfold Arena.rewind
  split
  · dsimp only
    split
    · rfl
    · dsimp only
      rw [← setCurrentBlock_reserved]
  · rfl

theorem reset_reserved (boom : ℕ → ℕ → Bool) (r : ℕ) :
    (Arena.reset boom { A with bytesReserved := r }).arena =
      { (A.reset boom).arena with bytesReserved := r } := by
  unfold Arena.reset
  dsimp only
  split <;> rfl

end reserved

/-- However a raw request ends, a lost block included. -/
theorem rawInner_sane {A : Arena} (h : Wf (mended A)) {sys : SystemAlloc}
    (hs : Grants sys A.blocks) {size align : ℕ} (hpow : PowerOfTwo align) (hsize : size < 2^64)
    (fallible : Bool) :
    Wf (mended (rawInner fallible sys A size align).2) ∧
      Grown A.blocks (rawInner fallible sys A size align).2.blocks := by
  have hgrowth : minBlockSize ≤ A.nextBlockSize := h.growth_min
  have htop : (mended A).curEnd ≤ addressTop := curEnd_le h
  by_cases hlost : Lost fallible sys A size align
  · obtain ⟨message,A',n,k,hraw,hspoilt⟩ := rawInner_lost hgrowth hs hpow hsize hlost
    have hfsp := wf_finishSlowPath h
    have hgrown : Grown (mended A).blocks (mended A).finishSlowPath.blocks :=
      finishSlowPath_grown h
    rw [hraw, hspoilt.after]
    refine ⟨?_,hgrown⟩
    exact {
      hfsp with
      growth_min := hspoilt.growth_min
      growth_max := hspoilt.growth_max
      reserved := rfl
      allocated_lt := wadd_lt _ _ }
  · have hend : A.curEnd < 2^64 := lt_of_le_of_lt htop (by norm_num [addressTop])
    obtain ⟨r,hr⟩ : ∃ r, Arena.rawInner fallible sys (mended A) size align =
        ((A.rawInner fallible sys size align).1,
          { (A.rawInner fallible sys size align).2 with bytesReserved := r }) :=
      rawInner_reserved fallible _
    have hraw := rawInner_end h hs hpow hsize fallible
    rw [hr] at hraw
    rw [rawInner_eq hend hlost]
    rcases rawEnd_cases h hpow hraw with ⟨p,-,hcarved⟩ | ⟨-,hunmoved⟩
    · rw [mended_eq hcarved.wf]
      exact ⟨hcarved.wf,hcarved.grown⟩
    · rw [mended_eq hunmoved.wf]
      exact ⟨hunmoved.wf,hunmoved.grown⟩

theorem onRaw_arena (r : Ret × Arena) (size align lost : ℕ) (k : Kind) :
    ∃ registry, (onRaw r size align lost k.filled).arena =
      { r.2 with dropRegistry := registry } := by
  obtain ⟨ret,A⟩ := r
  cases ret with
  | none => exact ⟨A.dropRegistry,rfl⟩
  | panic message => exact ⟨A.dropRegistry,rfl⟩
  | ptr p =>
    have helements : ∀ ty len yields, ∃ registry, (placeElements ty len yields p A).arena =
        { A with dropRegistry := registry } := by
      intro ty len yields
      unfold placeElements
      split
      · exact ⟨A.dropRegistry,rfl⟩
      · exact ⟨_,rfl⟩
    cases k with
    | slice ty len yields => exact helements ty len yields
    | sliceCopy ty len => exact helements ty len len
    | _ => exact ⟨_,rfl⟩

theorem slice_answer {fallible : Bool} {overflow : Ret} {sys : SystemAlloc} {A : Arena} {ty : Ty}
    {len : ℕ} {filled : ℕ → Arena → Outcome} (hd : sliceDemand ty len = none) :
    ∃ ret drops, allocSliceWith fallible overflow sys A ty len filled = answer A ret drops := by
  rcases allocSliceWith_cases fallible overflow sys A ty len filled with
    ⟨-,hans⟩ | ⟨size,align,hsome,-⟩
  · exact hans
  · exact nomatch hd.symm.trans hsome

theorem raw_answer {fallible : Bool} {sys : SystemAlloc} {A : Arena} {size align : ℕ}
    {filled : ℕ → Arena → Outcome} (hd : ¬ (PowerOfTwo align ∧ size ≠ 0)) :
    ∃ ret drops, allocRawWith fallible sys A size align filled = answer A ret drops := by
  rcases allocRawWith_cases fallible sys A size align filled with ⟨-,hans⟩ | ⟨hyes,-⟩
  · exact hans
  · exact absurd hyes hd

theorem serve_answer {r : Request} (hd : r.kind.demand = none) (sys : SystemAlloc) (A : Arena) :
    ∃ ret drops, r.serve sys A = answer A ret drops := by
  obtain ⟨kind,fallible⟩ := r
  cases kind with
  | slice _ _ _ | sliceCopy _ _ => cases fallible <;> exact slice_answer hd
  | value ty =>
    have hsize : ty.size = 0 := of_not_not (fun hne => nomatch (if_neg hne).symm.trans hd)
    cases fallible <;> exact ⟨_,_,if_pos hsize⟩
  | str len =>
    have hlen : len = 0 := of_not_not (fun hne => nomatch (if_neg hne).symm.trans hd)
    cases fallible <;> exact ⟨_,_,if_pos hlen⟩
  | uninit ty =>
    have hsize : ty.size = 0 := of_not_not (fun hne => nomatch (if_neg hne).symm.trans hd)
    exact ⟨_,_,if_pos hsize⟩
  | raw size align =>
    have hno : ¬ (PowerOfTwo align ∧ size ≠ 0) := fun hyes => nomatch (if_pos hyes).symm.trans hd
    cases fallible <;> exact raw_answer hno
  | zeroed size align =>
    have hno : ¬ (PowerOfTwo align ∧ size ≠ 0) := fun hyes => nomatch (if_pos hyes).symm.trans hd
    cases fallible with
    | false =>
      by_cases hsize : size = 0
      · exact ⟨_,_,if_pos hsize⟩
      · obtain ⟨ret,drops,heq⟩ := @raw_answer false sys A size align (placeBytes size) hno
        exact ⟨ret,drops,(if_neg hsize).trans heq⟩
    | true => exact raw_answer hno
  | cacheAligned size =>
    have hno : ¬ (PowerOfTwo cacheLineSize ∧ size ≠ 0) :=
      fun hyes => nomatch (if_pos hyes.2).symm.trans hd
    cases fallible <;> exact raw_answer hno

theorem serve_sane {A : Arena} (h : Wf (mended A)) {sys : SystemAlloc}
    (hs : Grants sys A.blocks) {r : Request} (hr : r.Typed) :
    Wf (mended (serve sys A r).arena) ∧ Grown A.blocks (serve sys A r).arena.blocks := by
  unfold serve
  cases hd : r.kind.demand with
  | none =>
    obtain ⟨ret,drops,heq⟩ := serve_answer hd sys A
    dsimp only
    rw [heq]
    exact ⟨h,grown_refl _⟩
  | some demand =>
    obtain ⟨size,align⟩ := demand
    obtain ⟨hpow,hsize⟩ := demand_typed hr hd
    obtain ⟨hwf,hgrown⟩ := rawInner_sane h hs hpow hsize r.fallible
    obtain ⟨registry,heq⟩ := onRaw_arena (rawInner r.fallible sys A size align) size align
      r.kind.lost r.kind
    dsimp only
    rw [heq]
    exact ⟨wf_withRegistry hwf registry,hgrown⟩

theorem guardedServe_sane {A : Arena} (h : Wf (mended A)) {sys : SystemAlloc}
    (hs : Grants sys A.blocks) {r : Request} (hr : r.Typed) (t : Transaction) :
    Wf (mended (guardedServe t sys A r).arena) ∧
      Grown A.blocks (guardedServe t sys A r).arena.blocks := by
  unfold guardedServe
  split
  · exact serve_sane h hs hr
  · rename_i hstop
    rcases txn_serve t sys A r with ⟨hpass,-⟩ | ⟨-,ret,-,lost,heq⟩
    · exact absurd hpass hstop
    · rw [heq]
      exact ⟨h,grown_refl _⟩

/-- What holds on runs that may lose blocks: all but the count of reserved bytes. -/
structure Sane (w : World) : Prop where
  wf : Wf (mended w.arena)
  recallable : ∀ m ∈ w.marks, Recallable w.arena.blocks m.cp
  opened : ∀ f ∈ w.opened, ⟨f.stamp,f.txn.checkpoint⟩ ∈ w.marks ∧ f.txn.committed = false

section steps
variable {w : World}

theorem sane_iff : Sane w ↔ Steady (fun A => Wf (mended A)) w :=
  ⟨fun h => ⟨h.wf,h.recallable,h.opened⟩,fun h => ⟨h.lawful,h.recallable,h.opened⟩⟩

theorem sane_of {w' : World} (h : Sane w) (hwf : Wf (mended w'.arena))
    (hgrown : Grown w.arena.blocks w'.arena.blocks) (hmarks : w'.marks = w.marks)
    (hopened : ∀ f ∈ w'.opened, f ∈ w.opened) : Sane w' :=
  sane_iff.mpr (steady_of (sane_iff.mp h) hwf hgrown hmarks hopened)

theorem sane_tick (h : Sane w) : Sane w.tick := ⟨h.wf,h.recallable,h.opened⟩

theorem rewind_sane {A : Arena} (h : Wf (mended A)) (boom : ℕ → ℕ → Bool) {cp : Checkpoint}
    (hcp : Recallable A.blocks cp) :
    Wf (mended (A.rewind boom cp).arena) ∧ Grown A.blocks (A.rewind boom cp).arena.blocks := by
  have heq : (Arena.rewind boom (mended A) cp).arena =
      { (A.rewind boom cp).arena with bytesReserved := totalCapacity A.blocks } :=
    rewind_reserved boom cp _
  obtain ⟨hwf,hgrown⟩ := wf_rewind h boom hcp
  rw [heq] at hwf hgrown
  rw [mended_eq hwf]
  exact ⟨hwf,hgrown⟩

theorem reset_sane {A : Arena} (h : Wf (mended A)) (boom : ℕ → ℕ → Bool) :
    Wf (mended (A.reset boom).arena) ∧ Grown A.blocks (A.reset boom).arena.blocks := by
  have heq : (Arena.reset boom (mended A)).arena =
      { (A.reset boom).arena with bytesReserved := totalCapacity A.blocks } :=
    reset_reserved boom _
  obtain ⟨hwf,hgrown⟩ := wf_reset h boom
  rw [heq] at hwf hgrown
  rw [mended_eq hwf]
  exact ⟨hwf,hgrown⟩

theorem lasting_mended : Lasting (fun A => Wf (mended A)) where
  depth := fun h n => wf_txnDepth h n
  checkpoint := fun {A} h => @recallable_checkpoint (mended A) h
  rewind := fun h boom _ hcp => rewind_sane h boom hcp
  reset := fun h boom => reset_sane h boom

theorem step_sweeping (w : World) {op : Op} (hop : Sweeping op) : step w op = w.step op := by
  cases op with
  | request sys r => exact hop.elim
  | guarded sys r => exact hop.elim
  | _ => rfl

theorem sane_sweeping (h : Sane w) {op : Op} (hop : Sweeping op) : Sane (step w op) := by
  rw [step_sweeping w hop]
  exact sane_iff.mpr (steady_sweeping lasting_mended (sane_iff.mp h) hop)

theorem sane_step (h : Sane w) {op : Op} (hop : Honest w op) : Sane (step w op) := by
  cases op with
  | request sys r =>
    obtain ⟨hwf,hgrown⟩ := serve_sane h.wf hop.1 hop.2
    exact sane_of h hwf hgrown rfl (fun _ hf => hf)
  | guarded sys r =>
    unfold step
    cases hopened : w.opened with
    | nil => exact sane_tick h
    | cons f rest =>
      obtain ⟨hwf,hgrown⟩ := guardedServe_sane h.wf hop.1 hop.2 f.txn
      exact sane_of h hwf hgrown rfl (fun _ hg => hg)
  | _ => exact sane_sweeping h trivial

end steps

def Visited (w : World) : Prop :=
  ∃ sys feature initialBytes A ops, Grants sys (InlineVec.new : Blocks) ∧
    Arena.withCapacity sys feature initialBytes = some A ∧
    Along step Honest (World.start A) ops ∧ w = run step (World.start A) ops

theorem sane_start {A : Arena} (h : Wf A) : Sane (World.start A) where
  wf := by
    have heq : mended (World.start A).arena = A := mended_eq h
    rw [heq]
    exact h
  recallable := nofun
  opened := nofun

theorem sane_visited {w : World} (h : Visited w) : Sane w := by
  obtain ⟨sys,feature,initialBytes,A,ops,hs,hA,halong,rfl⟩ := h
  exact run_invariant step Honest Sane (fun _ _ hw hop => sane_step hw hop) _ ops
    (sane_start (wf_withCapacity hs hA).1) halong

def Loses (w : World) (op : Op) : Prop :=
  ∃ sys r size align, r.kind.demand = some (size,align) ∧
    Lost r.fallible sys w.arena size align ∧
    (op = .request sys r ∨ op = .guarded sys r ∧ ∃ f rest, w.opened = f::rest ∧
      offered r = true ∧ f.txn.budgetOk w.arena (payload r.kind) = true)

end FastArena.ListBuffer
