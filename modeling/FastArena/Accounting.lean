import FastArena.ArenaSteps

/-!
# The byte accounting

Bytes consumed are what the blocks before the current one hold plus the part of
the current block below the bump pointer. The arena counts each byte of a new
block twice: once when the block is entered and once through the pointer. The
count is exact on runs where every request is served by the current block, and
on a few others that are named here.
-/

set_option autoImplicit false

namespace FastArena.Accounting
open FastArena.MachineWord FastArena.ByteSpan FastArena.ArenaBlock FastArena.InlineStorage
  FastArena.DropTracking FastArena.ArenaCore FastArena.ArenaInvariant FastArena.RawRequest
  FastArena.ArenaSweep FastArena.ArenaRequests FastArena.ArenaTransaction FastArena.LabelledRun
  FastArena.ArenaWorld FastArena.ArenaSteps

def spent (blocks : Blocks) (n : ℕ) : ℕ := ∑ i ∈ Finset.range n, (blocks.get i).offset

/-- Bytes consumed: in the blocks before the current one, and in the current one so far. -/
def used (A : Arena) : ℕ := spent A.blocks A.current + A.curOffset

theorem spent_congr {blocks blocks' : Blocks} {n : ℕ}
    (h : ∀ i < n, (blocks'.get i).offset = (blocks.get i).offset) :
    spent blocks' n = spent blocks n :=
  Finset.sum_congr rfl (fun i hi => h i (Finset.mem_range.mp hi))

theorem spent_skip {blocks : Blocks} {n k : ℕ} (hnk : n < k)
    (h : ∀ i, n < i → i < k → (blocks.get i).offset = 0) :
    spent blocks k = spent blocks n + (blocks.get n).offset := by
  have hsub : Finset.range (n+1) ⊆ Finset.range k := Finset.range_mono hnk
  have hzero : ∀ i ∈ Finset.range k, i ∉ Finset.range (n+1) → (blocks.get i).offset = 0 := by
    intro i hi hnot
    simp only [Finset.mem_range] at hi hnot
    exact h i (by omega) hi
  rw [spent, ← Finset.sum_subset hsub hzero, Finset.sum_range_succ]
  rfl

theorem spent_moved {A A' : Arena} {size align p : ℕ} (h : Moved A size align p A') :
    spent A'.blocks A'.current = used A := by
  rw [spent_skip h.later h.skipped, h.left, used]
  congr 1
  exact spent_congr (fun i hi => congrArg Block.offset (h.kept i hi))

theorem used_le_reserved {A : Arena} (h : Wf A) : used A ≤ A.bytesReserved := by
  have hlt := current_lt h
  have hsum : spent A.blocks A.current + (A.blocks.get A.current).capacity ≤
      totalCapacity A.blocks := by
    calc
      spent A.blocks A.current + (A.blocks.get A.current).capacity
          ≤ ∑ i ∈ Finset.range A.current, (A.blocks.get i).capacity +
              (A.blocks.get A.current).capacity := by
            apply Nat.add_le_add_right
            apply Finset.sum_le_sum
            intro i hi
            exact (h.laid.placed i (lt_trans (Finset.mem_range.mp hi) hlt)).offset_le
      _ = ∑ i ∈ Finset.range (A.current+1), (A.blocks.get i).capacity :=
            (Finset.sum_range_succ _ _).symm
      _ ≤ totalCapacity A.blocks :=
            Finset.sum_le_sum_of_subset (Finset.range_mono hlt)
  have hoff := curOffset_le h
  rw [h.reserved, used]
  omega

theorem used_lt {A : Arena} (h : Wf A) : used A < 2^64 := by
  have htop : totalCapacity A.blocks ≤ 2^63 := totalCapacity_le h.laid
  have hle := used_le_reserved h
  rw [h.reserved] at hle
  omega

def Flushed (A : Arena) : Prop := A.bytesAllocated = spent A.blocks A.current

theorem flushed_stats {A : Arena} (h : Wf A) (hf : Flushed A) :
    A.stats.bytesAllocated = used A := by
  have hlt := used_lt h
  rw [used, ← hf] at hlt ⊢
  exact wadd_eq hlt

/-- When a raw request is counted once: it fits the current block, is rejected on the fast path,
is refused with nothing in the current block, or moves to another block for no bytes. -/
def CountedOnce (fallible : Bool) (sys : SystemAlloc) (A : Arena) (size align : ℕ) : Prop :=
  Fits A size align ∨ (fallible = true ∧ Overflows A size align) ∨
    (if Refused sys A size align then A.curOffset = 0 else size = 0)

instance (fallible : Bool) (sys : SystemAlloc) (A : Arena) (size align : ℕ) :
    Decidable (CountedOnce fallible sys A size align) := by
  unfold CountedOnce
  infer_instance

/-- The exact condition, at one request: the count stays exact if and only if the request is
counted once. -/
theorem flushed_rawEnd {A A' : Arena} (h : Wf A) (hf : Flushed A) {fallible : Bool}
    {sys : SystemAlloc} {size align : ℕ} (hsize : size < 2^64) {ret : Ret}
    (hend : RawEnd fallible sys A size align ret A') :
    Flushed A' ↔ CountedOnce fallible sys A size align := by
  have hflush : wadd A.bytesAllocated A.curOffset = used A := flushed_stats h hf
  have hused := used_lt h
  have hoff : A.curOffset < 2^64 := wsub_lt _ _
  cases hend with
  | bumped hb =>
    obtain ⟨hfits,-,rfl⟩ := hb
    exact iff_of_true hf (Or.inl hfits)
  | moved hfits hroom hslow hm =>
    have hcount : Flushed A' ↔ size = 0 := by
      rw [Flushed, hm.bytes, spent_moved hm, hflush]
      exact wadd_eq_self_iff hused hsize
    rw [hcount, CountedOnce, if_neg hroom]
    tauto
  | stalled hfits hrefused hslow hs hret =>
    obtain ⟨n,-,-,rfl⟩ := hs
    have hspent : spent A.finishSlowPath.blocks A.current = spent A.blocks A.current :=
      spent_congr (fun i hi => congrArg Block.offset (finishSlowPath_get A (Nat.ne_of_lt hi)))
    have hcount : Flushed { A.finishSlowPath with nextBlockSize := n } ↔ A.curOffset = 0 := by
      change wadd A.bytesAllocated A.curOffset = spent A.finishSlowPath.blocks A.current ↔ _
      rw [hspent, ← hf]
      exact wadd_eq_self_iff h.allocated_lt hoff
    rw [hcount, CountedOnce, if_pos hrefused]
    tauto
  | rejected hfallible hover => exact iff_of_true hf (Or.inr (Or.inl ⟨hfallible,hover⟩))

theorem stats_iff_flushed {A : Arena} (h : Wf A) :
    A.stats.bytesAllocated = used A ↔ Flushed A := by
  refine ⟨?_,flushed_stats h⟩
  intro hstats
  have hused := used_lt h
  have hlt := h.allocated_lt
  have hsum : wadd A.bytesAllocated A.curOffset = spent A.blocks A.current + A.curOffset := hstats
  rw [used] at hused
  unfold wadd at hsum
  unfold Flushed
  omega

def Counted (sys : SystemAlloc) (A : Arena) (r : Request) : Prop :=
  ∀ size align, r.kind.demand = some (size,align) → CountedOnce r.fallible sys A size align

theorem counted_iff {sys : SystemAlloc} {A : Arena} {r : Request} {size align : ℕ}
    (hd : r.kind.demand = some (size,align)) :
    Counted sys A r ↔ CountedOnce r.fallible sys A size align :=
  demand_each hd

theorem flushed_served {A : Arena} (h : Wf A) (hf : Flushed A) {sys : SystemAlloc} {r : Request}
    (hr : r.Typed) {o : Outcome} (ho : Served sys A r o) : Flushed o.arena ↔ Counted sys A r := by
  cases ho with
  | carved hd _ hend _ _ hfills =>
    obtain ⟨registry,harena,-,-⟩ := hfills.arena_eq
    rw [counted_iff hd, ← flushed_rawEnd h hf (demand_typed hr hd).2 hend, harena]
    exact Iff.rfl
  | failed hd _ hend _ _ =>
    rw [counted_iff hd, ← flushed_rawEnd h hf (demand_typed hr hd).2 hend]
    rfl
  | answered hd => exact iff_of_true hf (fun _ _ hd' => nomatch hd.symm.trans hd')

def Accounted (w : World) (op : Op) : Prop :=
  Honest w op ∧ StillValid w op ∧
    match op with
    | .request sys r => Counted sys w.arena r
    | .guarded sys r =>
      ∀ f ∈ w.opened.head?, f.txn.budgetOk w.arena (payload r.kind) = true → Counted sys w.arena r
    | _ => True

structure Exact (w : World) : Prop where
  flushed : Flushed w.arena
  marks : ∀ m ∈ w.marks, m.stamp ∈ w.valid →
    m.cp.bytesAllocated = spent w.arena.blocks m.cp.blockIdx + m.cp.offset
  opened : ∀ f ∈ w.opened, f.txn.bytesAtOpen = used f.start

theorem exact_advance {w w' : World} (h : Exact w) (hstacked : Stacked w)
    (hflushed : Flushed w'.arena) (hmarks : w'.marks = w.marks) (hvalid : w'.valid = w.valid)
    (hopened : w'.opened = w.opened)
    (hkept : ∀ i < w.arena.current, w'.arena.blocks.get i = w.arena.blocks.get i) :
    Exact w' := by
  refine ⟨hflushed,?_,by rw [hopened]; exact h.opened⟩
  intro m hm hv
  rw [hmarks] at hm
  rw [hvalid] at hv
  have hbelow : m.cp.blockIdx ≤ w.arena.current := by
    rcases Prod.Lex.toLex_le_toLex.mp (hstacked.below m hm hv) with hlt | ⟨heq,-⟩
    · exact Nat.le_of_lt hlt
    · exact Nat.le_of_eq heq
  rw [h.marks m hm hv, spent_congr (fun i hi => congrArg Block.offset (hkept i (by omega)))]

theorem exact_served {w : World} (hinv : Inv w) (hstacked : Stacked w) (h : Exact w)
    {sys : SystemAlloc} {r : Request} (hr : r.Typed) (hcounted : Counted sys w.arena r)
    {o : Outcome} (ho : Served sys w.arena r o) : Exact (w.take o) := by
  have hflushed : Flushed (w.take o).arena := (flushed_served hinv.wf h.flushed hr ho).mpr hcounted
  cases ho with
  | carved _ _ _ hcarved _ hfills =>
    obtain ⟨registry,harena,-,-⟩ := hfills.arena_eq
    have hkept : ∀ i < w.arena.current, o.arena.blocks.get i = w.arena.blocks.get i := by
      intro i hi
      rw [harena]
      exact hcarved.kept i hi
    exact exact_advance h hstacked hflushed rfl rfl rfl hkept
  | failed _ _ _ _ hunmoved => exact exact_advance h hstacked hflushed rfl rfl rfl hunmoved.kept
  | answered _ => exact exact_advance h hstacked hflushed rfl rfl rfl (fun _ _ => rfl)

theorem checkpoint_bytes {A : Arena} (h : Wf A) (hf : Flushed A) :
    A.checkpoint.bytesAllocated = used A := flushed_stats h hf

theorem exact_note {w w' : World} (hinv : Inv w) (h : Exact w) (hflushed : Flushed w'.arena)
    (hblocks : w'.arena.blocks = w.arena.blocks)
    (hmarks : w'.marks = ⟨w.clock,w.arena.checkpoint⟩ :: w.marks)
    (hvalid : w'.valid = w.clock :: w.valid)
    (hopened : ∀ f ∈ w'.opened, f ∈ w.opened ∨
      f = ⟨(Transaction.new w.arena).1,w.clock,w.arena⟩) : Exact w' := by
  have hcount := checkpoint_bytes hinv.wf h.flushed
  refine ⟨hflushed,?_,?_⟩
  · intro m hm hv
    rw [hmarks] at hm
    rw [hvalid] at hv
    rw [hblocks]
    rcases List.mem_cons.mp hm with rfl | hold
    · exact hcount
    · rcases List.mem_cons.mp hv with heq | hv
      · have hpast := hinv.sound.marks_past m.spot (List.mem_map_of_mem hold)
        exact absurd heq (Nat.ne_of_lt hpast)
      · exact h.marks m hold hv
  · intro f hf
    rcases hopened f hf with hold | rfl
    · exact h.opened f hold
    · exact hcount

/-- Rewinding to a valid checkpoint brings its exact count back. -/
theorem exact_rewind {w : World} (hinv : Inv w) (hstacked : Stacked w) (h : Exact w)
    (boom : ℕ → ℕ → Bool) {m : Mark} (hm : m ∈ w.marks) (hmv : m.stamp ∈ w.valid) :
    Exact (w.sweep (w.arena.rewind boom m.cp) m.stamp) := by
  rcases (rewind_cases boom hinv.wf (hinv.recallable m hm)).2.2 with
    ⟨-,-,harena⟩ | ⟨-,-,hrewound⟩
  · refine ⟨?_,?_,h.opened⟩
    · change Flushed (w.arena.rewind boom m.cp).arena
      rw [harena]
      exact h.flushed
    · intro k hk hkv
      change k.cp.bytesAllocated =
        spent (w.arena.rewind boom m.cp).arena.blocks k.cp.blockIdx + k.cp.offset
      rw [harena]
      exact h.marks k hk (mem_valid_sweep hkv).1
  · have hbelow : ∀ n ≤ m.cp.blockIdx,
        spent (w.arena.rewind boom m.cp).arena.blocks n = spent w.arena.blocks n := by
      intro n hn
      apply spent_congr
      intro i hi
      have hidx := (hinv.recallable m hm).idx_lt
      exact congrArg Block.offset (hrewound.below i (by omega) (by omega))
    refine ⟨?_,?_,h.opened⟩
    · have hused := used_lt hrewound.wf
      rw [used, hrewound.current_eq, rewound_offset hrewound, hbelow _ (le_refl _)] at hused
      change (w.arena.rewind boom m.cp).arena.bytesAllocated =
        spent (w.arena.rewind boom m.cp).arena.blocks (w.arena.rewind boom m.cp).arena.current
      rw [hrewound.bytes, hrewound.current_eq, hbelow _ (le_refl _), h.marks m hm hmv,
        wsub_eq (Nat.le_add_left _ _) hused, Nat.add_sub_cancel]
    · intro k hk hkv
      obtain ⟨hv,hle⟩ := mem_valid_sweep hkv
      have hidx : k.cp.blockIdx ≤ m.cp.blockIdx := by
        rcases Prod.Lex.toLex_le_toLex.mp (hstacked.order k hk m hm hv hmv hle) with
          hlt | ⟨heq,-⟩
        · exact Nat.le_of_lt hlt
        · exact Nat.le_of_eq heq
      rw [h.marks k hk hv, ← hbelow _ hidx]
      rfl

theorem exact_reset {w : World} (hinv : Inv w) (hstacked : Stacked w) (h : Exact w)
    (boom : ℕ → ℕ → Bool) : Exact (w.sweep (w.arena.reset boom) 0) := by
  refine ⟨?_,?_,h.opened⟩
  · rcases (reset_cases boom hinv.wf).2.2 with ⟨-,-,harena⟩ | ⟨-,-,hemptied⟩
    · change Flushed (w.arena.reset boom).arena
      rw [harena]
      exact h.flushed
    · change (w.arena.reset boom).arena.bytesAllocated = spent _ (w.arena.reset boom).arena.current
      rw [hemptied.bytes, hemptied.current_eq]
      rfl
  · intro m _ hv
    obtain ⟨hpast,hle⟩ := mem_valid_sweep hv
    exact absurd (hstacked.valid_pos _ hpast) (Nat.not_lt.mpr hle)

theorem exact_kin {w : World} (h : Exact w) {opened : List Open} (hkin : Kin w.opened opened) :
    ∀ f ∈ opened, f.txn.bytesAtOpen = used f.start := by
  intro f hf
  obtain ⟨g,hg,-,hstart,limit,htxn⟩ := hkin f hf
  rw [htxn, hstart]
  exact h.opened g hg

theorem exact_depth {w : World} (h : Exact w) (n : ℕ) : Exact (atDepth w n) :=
  ⟨h.flushed,h.marks,h.opened⟩

theorem exact_step {w : World} (hinv : Inv w) (hstacked : Stacked w) (h : Exact w) {op : Op}
    (hop : Accounted w op) : Exact (w.step op) := by
  obtain ⟨hhonest,hvalid,hcounted⟩ := hop
  have hstep := stepped hinv hhonest
  generalize w.step op = w' at hstep
  cases hstep with
  | @served sys r o hcall _ hserved =>
    rcases hcall with rfl | ⟨rfl,f,rest,hopened,hok⟩
    · exact exact_served hinv hstacked h hhonest.2 hcounted hserved
    · exact exact_served hinv hstacked h hhonest.2 (hcounted f (by rw [hopened]; rfl) hok) hserved
  | declined _ => exact exact_advance h hstacked h.flushed rfl rfl rfl (fun _ _ => rfl)
  | ticked hkin => exact ⟨h.flushed,h.marks,exact_kin h hkin⟩
  | noted hopened => exact exact_note hinv h h.flushed rfl rfl rfl hopened
  | @rewound boom n m opened hm htarget _ hkin =>
    have hs := exact_rewind (inv_depth hinv n) (stacked_depth hstacked n) (exact_depth h n) boom hm
      (htarget _ hvalid)
    exact ⟨hs.flushed,hs.marks,exact_kin h hkin⟩
  | reset _ => exact exact_reset hinv hstacked h _

/-- The count is exact, fits in what is reserved, and every open guard sees its growth. -/
structure CountExact (w : World) : Prop where
  stats_eq : w.arena.stats.bytesAllocated = used w.arena
  stats_le : w.arena.stats.bytesAllocated ≤ w.arena.stats.bytesReserved
  growth : ∀ f ∈ w.opened, f.txn.bytesUsed w.arena = used w.arena - used f.start

theorem countExact_of {w : World} (hinv : Inv w) (h : Exact w) : CountExact w where
  stats_eq := flushed_stats hinv.wf h.flushed
  stats_le := by
    rw [flushed_stats hinv.wf h.flushed]
    exact used_le_reserved hinv.wf
  growth := by
    intro f hf
    have hstats : wadd w.arena.bytesAllocated w.arena.curOffset = used w.arena :=
      flushed_stats hinv.wf h.flushed
    rw [Transaction.bytesUsed, h.opened f hf, hstats]

theorem exact_reached {w : World} (h : Reached Accounted w) : Inv w ∧ Exact w := by
  obtain ⟨sys,feature,initialBytes,A,ops,hs,hA,halong,rfl⟩ := h
  obtain ⟨hwf,hcurrent,-,hbytes,-,hregistry⟩ := wf_withCapacity hs hA
  have hstart : Exact (World.start A) := by
    refine ⟨?_,nofun,nofun⟩
    change A.bytesAllocated = spent A.blocks A.current
    rw [hbytes, hcurrent]
    rfl
  have hinv : Inv (World.start A) := inv_start hwf (by rw [hregistry, DropRegistry.entries_new])
  have hrun := run_invariant World.step Accounted (fun w => Inv w ∧ Stacked w ∧ Exact w)
    (fun w op hw hop => ⟨inv_step hw.1 hop.1,stacked_step hw.1 hw.2.1 hop.1 hop.2.1,
      exact_step hw.1 hw.2.1 hw.2.2 hop⟩) _ ops ⟨hinv,stacked_start A,hstart⟩ halong
  exact ⟨hrun.1,hrun.2.2⟩

/-- On runs whose requests are counted once the accounting is exact, and the first request that
is not counted once makes it wrong. -/
theorem accounting_exact {w : World} (h : Reached Accounted w) :
    CountExact w ∧ ∀ sys r, Honest w (.request sys r) →
      ((w.step (.request sys r)).arena.stats.bytesAllocated =
        used (w.step (.request sys r)).arena ↔ Counted sys w.arena r) := by
  obtain ⟨hinv,hexact⟩ := exact_reached h
  refine ⟨countExact_of hinv hexact,?_⟩
  intro sys r hop
  have hafter : Inv (w.step (.request sys r)) := inv_step hinv hop
  rw [stats_iff_flushed hafter.wf]
  exact flushed_served hinv.wf hexact.flushed hop.2 (serve_served hinv.wf hop.1 hop.2)

def oneBlockCalls : List Op :=
  [.request noMemory ⟨.value eightBytes,false⟩,.begin,.guarded noMemory ⟨.raw 8 16,true⟩]

theorem accounting_exact_oneBlockCalls :
    ∃ A, smallArena true 64 = some A ∧
      CountExact (run World.step (World.start A) oneBlockCalls) ∧
      used (run World.step (World.start A) oneBlockCalls).arena = 24 := by
  obtain ⟨A,hA⟩ : ∃ A, smallArena true 64 = some A := ⟨_,rfl⟩
  have hreached : Reached Accounted (run World.step (World.start A) oneBlockCalls) := by
    apply reached_small (by norm_num) hA
    have hraw : (8 : ℕ) < 2^64 := by norm_num
    refine ⟨⟨⟨grants_noMemory _,trivial⟩,trivial,?_⟩,⟨trivial,trivial,trivial⟩,
      ⟨⟨grants_noMemory _,hraw⟩,trivial,?_⟩,trivial⟩
    · refine (counted_iff rfl).mpr ?_
      cases hA
      decide +kernel
    · intro f _ _
      refine (counted_iff rfl).mpr ?_
      cases hA
      decide +kernel
  refine ⟨A,hA,(accounting_exact hreached).1,?_⟩
  cases hA
  decide +kernel

def twoBlocks : List Op :=
  [.request noMemory ⟨.raw 64 1,false⟩,.request (oneBlock 128 8192) ⟨.raw 128 1,false⟩]

/-- The bytes that open a new block are counted twice, past what is reserved. -/
theorem count_twoBlocks : ∃ w, Reached Permitted w ∧ w.arena.stats = ⟨320,192,2⟩ ∧
    used w.arena = 192 ∧ ¬ CountExact w := by
  obtain ⟨A,hA⟩ : ∃ A, smallArena true 64 = some A := ⟨_,rfl⟩
  have hfirst : (64 : ℕ) < 2^64 := by norm_num
  have hsecond : (128 : ℕ) < 2^64 := by norm_num
  have hreached : Reached Permitted (run World.step (World.start A) twoBlocks) := by
    apply reached_small (by norm_num) hA
    refine ⟨⟨⟨grants_noMemory _,hfirst⟩,trivial⟩,⟨⟨?_,hsecond⟩,trivial⟩,trivial⟩
    apply grants_second (by norm_num [minBlockAlign]) (by norm_num [addressTop])
    all_goals
      cases hA
      decide +kernel
  have hstats : (run World.step (World.start A) twoBlocks).arena.stats = ⟨320,192,2⟩ := by
    cases hA
    decide +kernel
  refine ⟨_,hreached,hstats,?_,?_⟩
  · cases hA
    decide +kernel
  · intro hexact
    have hle := hexact.stats_le
    rw [hstats] at hle
    norm_num at hle

end FastArena.Accounting
