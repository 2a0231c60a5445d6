import FastArena.SystemCalls

/-!
# How sweeps compose

Going back in steps is going back at once: rewinding to a checkpoint after
having rewound to a later one, or resetting after having rewound, leaves the
arena a single call would have left, and the destructors run are the same in
the same order. Only the shortcut for the block scan may differ.
-/

set_option autoImplicit false

namespace FastArena.SweepAlgebra
open FastArena.MachineWord FastArena.ArenaBlock FastArena.InlineStorage FastArena.DropTracking
  FastArena.ArenaCore FastArena.ArenaInvariant FastArena.RawRequest FastArena.ArenaSweep
  FastArena.ArenaRequests FastArena.LabelledRun FastArena.ArenaWorld FastArena.ArenaSteps
  FastArena.SystemHeap FastArena.SystemCalls

/-- Equal but for what the arena remembers of the room in its later blocks. -/
structure Alike (A A' : Arena) : Prop where
  blocks : A'.blocks.toList = A.blocks.toList
  current : A'.current = A.current
  nextBlockSize : A'.nextBlockSize = A.nextBlockSize
  bytesAllocated : A'.bytesAllocated = A.bytesAllocated
  bytesReserved : A'.bytesReserved = A.bytesReserved
  txnDepth : A'.txnDepth = A.txnDepth
  entries : A'.dropRegistry.entries = A.dropRegistry.entries
  tracking : A'.dropRegistry.isTracking = A.dropRegistry.isTracking
  curBase : A'.curBase = A.curBase
  curPtr : A'.curPtr = A.curPtr
  curEnd : A'.curEnd = A.curEnd
  highWaterMark : A'.highWaterMark = A.highWaterMark

/-- The destructors above a target, split at a later one. -/
theorem callsUntil_split (boom : ℕ → ℕ → Bool) {target later : ℕ} (h : target ≤ later)
    (es : List DropSlot) : callsUntil boom target es =
      callsUntil boom later es ++ callsUntil boom target (es.take later) := by
  have hsplit : es.zipIdx.drop target =
      (es.take later).zipIdx.drop target ++ es.zipIdx.drop later := by
    have happend := @List.zipIdx_append _ (es.take later) (es.drop later) 0
    rw [List.take_append_drop] at happend
    by_cases hle : later ≤ es.length
    · have hlen : (es.take later).zipIdx.length = later := by
        rw [List.length_zipIdx, List.length_take, Nat.min_eq_left hle]
      rw [happend, List.drop_append_of_le_length (by omega), List.drop_left' hlen]
    · have hnone : es.zipIdx.drop later = [] :=
        List.drop_of_length_le (by rw [List.length_zipIdx]; omega)
      rw [hnone, List.append_nil, List.take_of_length_le (by omega)]
  rw [callsUntil, hsplit, List.reverse_append, List.flatMap_append]
  rfl

section arenas
variable {A A' B B' : Arena}

theorem block_eq {b b' : Block} (hchunk : chunk b' = chunk b) (hoffset : b'.offset = b.offset) :
    b' = b := by
  obtain ⟨offset,capacity,base,align⟩ := b
  obtain ⟨offset',capacity',base',align'⟩ := b'
  obtain ⟨rfl,rest⟩ := Chunk.mk.inj hchunk
  obtain ⟨rfl,rfl⟩ := rest
  obtain rfl := hoffset
  rfl

theorem chunks_get {blocks blocks' : Blocks} (hchunks : chunks blocks' = chunks blocks) :
    blocks'.len = blocks.len ∧ ∀ i < blocks.len, chunk (blocks'.get i) = chunk (blocks.get i) := by
  have hlen : blocks'.len = blocks.len := by
    rw [← chunks_length, ← chunks_length, hchunks]
  refine ⟨hlen,fun i hi => ?_⟩
  have hi' := chunks_getElem (show i < blocks'.len by omega)
  rw [hchunks, chunks_getElem hi] at hi'
  exact (Option.some.inj hi').symm

theorem toList_eq {blocks blocks' : Blocks} (hchunks : chunks blocks' = chunks blocks)
    (hoffset : ∀ i < blocks.len, (blocks'.get i).offset = (blocks.get i).offset) :
    blocks'.toList = blocks.toList := by
  obtain ⟨hlen,hget⟩ := chunks_get hchunks
  rw [InlineVec.toList, InlineVec.toList, hlen]
  apply List.map_congr_left
  intro i hi
  exact block_eq (hget i (List.mem_range.mp hi)) (hoffset i (List.mem_range.mp hi))

theorem highWaterMark_rewind (boom : ℕ → ℕ → Bool) {cp : Checkpoint}
    (hidx : cp.blockIdx ≤ A.highWaterMark) :
    (A.rewind boom cp).arena.highWaterMark = A.highWaterMark := by
  unfold Arena.rewind
  split
  · dsimp only
    split
    · rfl
    · unfold Arena.setCurrentBlock
      dsimp only
      split
      · exact if_neg (Nat.not_lt.mpr hidx)
      · exact if_neg (Nat.not_lt.mpr hidx)
  · rfl

variable {m k : Checkpoint} {boom : ℕ → ℕ → Bool}

theorem quiet_later {r : DropRegistry} {target later : ℕ} (h : target ≤ later)
    (hquiet : (r.runDropsUntil boom target).2.2 = false) :
    (r.runDropsUntil boom later).2.2 = false ∧
      ((r.runDropsUntil boom later).2.1.runDropsUntil boom target).2.2 = false := by
  have hnone : ∀ n slot e, target ≤ n → r.entries[n]? = some slot → e < slot.count →
      boom n e ≠ true := by
    intro n slot e hn hslot he hboom
    have hpanic := (r.panicked_runDropsUntil boom target).mpr ⟨n,slot,e,hn,hslot,he,hboom⟩
    exact Bool.false_ne_true (hquiet.symm.trans hpanic)
  constructor
  · apply Bool.eq_false_iff.mpr
    intro hpanic
    obtain ⟨n,slot,e,hn,hslot,he,hboom⟩ := (r.panicked_runDropsUntil boom later).mp hpanic
    exact hnone n slot e (h.trans hn) hslot he hboom
  · apply Bool.eq_false_iff.mpr
    intro hpanic
    obtain ⟨n,slot,e,hn,hslot,he,hboom⟩ := (DropRegistry.panicked_runDropsUntil _ boom target).mp hpanic
    rw [DropRegistry.entries_runDropsUntil] at hslot
    rw [List.getElem?_take] at hslot
    split at hslot
    · exact hnone n slot e hn hslot he hboom
    · cases hslot

theorem rewind_done (h : Wf A) (hcp : Recallable A.blocks m)
    (hquiet : (A.dropRegistry.runDropsUntil boom m.dropRegistryLen).2.2 = false) :
    (A.rewind boom m).panic = none ∧ Rewound A m (A.rewind boom m).arena := by
  rcases (rewind_cases boom h hcp).2.2 with ⟨-,hflag,-⟩ | ⟨hpanic,-,hrewound⟩
  · exact absurd (hquiet.symm.trans hflag) Bool.false_ne_true
  · exact ⟨hpanic,hrewound⟩

theorem alike_rewound {C C' : Arena} (hC : Rewound B m C) (hC' : Rewound B' m C')
    (hchunks : chunks B'.blocks = chunks B.blocks) (hafter : chunks C.blocks = chunks B.blocks)
    (hafter' : chunks C'.blocks = chunks B'.blocks) (hidx : m.blockIdx < B.blocks.len)
    (hbelow : ∀ i < m.blockIdx, (B'.blocks.get i).offset = (B.blocks.get i).offset)
    (hhigh : C'.highWaterMark = C.highWaterMark) (hreserved : B'.bytesReserved = B.bytesReserved)
    (hgrowth : B'.nextBlockSize = B.nextBlockSize) (hdepth : B'.txnDepth = B.txnDepth)
    (hentries : C'.dropRegistry.entries = C.dropRegistry.entries)
    (htracking : C'.dropRegistry.isTracking = C.dropRegistry.isTracking) : Alike C C' := by
  obtain ⟨hlen,hget⟩ := chunks_get hchunks
  obtain ⟨hbase,hcap,-⟩ := Chunk.mk.inj (hget m.blockIdx hidx)
  have hcurBase : C'.curBase = C.curBase := by rw [hC'.base_eq, hC.base_eq, hbase]
  have hcapacity : (C'.blocks.get m.blockIdx).capacity = (C.blocks.get m.blockIdx).capacity := by
    rw [(extent_inj (hC'.grown.extent_eq _ (hlen ▸ hidx))).2,
      (extent_inj (hC.grown.extent_eq _ hidx)).2, hcap]
  constructor
  · apply toList_eq (hafter'.trans (hchunks.trans hafter.symm))
    intro i hi
    rw [hC.len_eq] at hi
    rcases Nat.lt_trichotomy i m.blockIdx with hlt | rfl | hgt
    · rw [hC'.below i hlt (by omega), hC.below i hlt hi]
      exact hbelow i hlt
    · rw [hC'.at_cp, hC.at_cp]
    · rw [hC'.above i (by omega) hgt, hC.above i hi hgt]
  · rw [hC'.current_eq, hC.current_eq]
  · rw [hC'.growth, hC.growth, hgrowth]
  · rw [hC'.bytes, hC.bytes]
  · rw [hC'.reserved, hC.reserved, hreserved]
  · rw [hC'.depth, hC.depth, hdepth]
  · exact hentries
  · exact htracking
  · exact hcurBase
  · rw [hC'.ptr_eq, hC.ptr_eq, hbase]
  · rw [hC'.wf.end_eq, hC.wf.end_eq, hC'.current_eq, hC.current_eq, hcurBase, hcapacity]
  · exact hhigh

/-- Rewinding twice is rewinding once. -/
theorem rewind_rewind (h : Wf A) (hm : Recallable A.blocks m) (hk : Recallable A.blocks k)
    (hplace : place m ≤ place k) (hpos : place k ≤ position A)
    (hlen : m.dropRegistryLen ≤ k.dropRegistryLen)
    (hquiet : (A.dropRegistry.runDropsUntil boom m.dropRegistryLen).2.2 = false) :
    (A.rewind boom k).panic = none ∧ ((A.rewind boom k).arena.rewind boom m).panic = none ∧
      (A.rewind boom k).calls ++ ((A.rewind boom k).arena.rewind boom m).calls =
        (A.rewind boom m).calls ∧
      Alike (A.rewind boom m).arena ((A.rewind boom k).arena.rewind boom m).arena := by
  obtain ⟨hquietK,hquietM⟩ := quiet_later hlen hquiet
  obtain ⟨hpanicK,hF⟩ := rewind_done h hk hquietK
  obtain ⟨-,hC⟩ := rewind_done h hm hquiet
  obtain ⟨hcallsK,hregK,-⟩ := rewind_cases boom h hk
  obtain ⟨hcallsM,hregM,-⟩ := rewind_cases boom h hm
  have hchunksK := chunks_rewind boom A k
  have hentriesK : (A.rewind boom k).arena.dropRegistry.entries =
      A.dropRegistry.entries.take k.dropRegistryLen := by
    rw [hregK, DropRegistry.entries_runDropsUntil]
  have htrackK : (A.rewind boom k).arena.dropRegistry.isTracking = A.dropRegistry.isTracking := by
    rw [hregK, DropRegistry.isTracking_runDropsUntil]
  have hidx : m.blockIdx ≤ k.blockIdx ∧ k.blockIdx ≤ A.current := by
    rw [place, place, Prod.Lex.toLex_le_toLex] at hplace
    rw [place, position, Prod.Lex.toLex_le_toLex] at hpos
    omega
  have hhigh := h.current_le
  have hhighK := @highWaterMark_rewind A boom k (by omega)
  generalize hF' : (A.rewind boom k).arena = F at *
  rw [← hregK] at hquietM
  have hrecall := recallable_grown hm hF.grown
  obtain ⟨hpanicM,hC'⟩ := rewind_done hF.wf hrecall hquietM
  obtain ⟨hcalls,hreg,-⟩ := rewind_cases boom hF.wf hrecall
  refine ⟨hpanicK,hpanicM,?_,?_⟩
  · rw [hcallsK, hcalls, hcallsM, hentriesK]
    exact (callsUntil_split boom hlen _).symm
  · apply alike_rewound hC hC' hchunksK (chunks_rewind boom A m) (chunks_rewind boom F m) hm.idx_lt
    · intro i hi
      rw [hF.below i (by omega) (by have := hm.idx_lt; omega)]
    · rw [highWaterMark_rewind boom (by omega), highWaterMark_rewind boom (by omega), hhighK]
    · exact hF.reserved
    · exact hF.growth
    · exact hF.depth
    · rw [hreg, hregM, DropRegistry.entries_runDropsUntil, DropRegistry.entries_runDropsUntil,
        hentriesK, List.take_take, Nat.min_eq_left hlen]
    · rw [hreg, hregM, DropRegistry.isTracking_runDropsUntil,
        DropRegistry.isTracking_runDropsUntil, htrackK]

/-- Two arenas emptied that own the same memory. -/
theorem alike_emptied {C C' : Arena} (hC : Emptied B C) (hC' : Emptied B' C')
    (hchunks : chunks C'.blocks = chunks C.blocks) (hhigh : C'.highWaterMark = C.highWaterMark)
    (hreserved : B'.bytesReserved = B.bytesReserved)
    (hgrowth : B'.nextBlockSize = B.nextBlockSize) (hdepth : B'.txnDepth = B.txnDepth)
    (hentries : C'.dropRegistry.entries = C.dropRegistry.entries)
    (htracking : C'.dropRegistry.isTracking = C.dropRegistry.isTracking) : Alike C C' := by
  obtain ⟨hlen,hget⟩ := chunks_get hchunks
  have hfirst := current_lt hC.wf
  rw [hC.current_eq] at hfirst
  obtain ⟨hbase,hcap,-⟩ := Chunk.mk.inj (hget 0 hfirst)
  have hcurBase : C'.curBase = C.curBase := by
    rw [hC'.wf.base_eq, hC.wf.base_eq, hC'.current_eq, hC.current_eq, hbase]
  constructor
  · apply toList_eq hchunks
    intro i hi
    rw [hC'.empty i (by rw [← hC'.len_eq, hlen]; exact hi), hC.empty i (hC.len_eq ▸ hi)]
  · rw [hC'.current_eq, hC.current_eq]
  · rw [hC'.growth, hC.growth, hgrowth]
  · rw [hC'.bytes, hC.bytes]
  · rw [hC'.reserved, hC.reserved, hreserved]
  · rw [hC'.depth, hC.depth, hdepth]
  · exact hentries
  · exact htracking
  · exact hcurBase
  · rw [hC'.ptr_eq, hC.ptr_eq, hcurBase]
  · rw [hC'.wf.end_eq, hC.wf.end_eq, hC'.current_eq, hC.current_eq, hcurBase, hcap]
  · exact hhigh

theorem reset_done (h : Wf A) (hquiet : (A.dropRegistry.runDropsUntil boom 0).2.2 = false) :
    (A.reset boom).panic = none ∧ Emptied A (A.reset boom).arena ∧
      (A.reset boom).arena.highWaterMark = 0 ∧
      ((A.reset boom).arena.largestRemaining,(A.reset boom).arena.largestRemainingIdx) =
        scanned (A.reset boom).arena.blocks := by
  rcases (reset_cases boom h).2.2 with ⟨-,hflag,-⟩ | ⟨hpanic,hflag,hemptied⟩
  · exact absurd (hquiet.symm.trans hflag) Bool.false_ne_true
  · refine ⟨hpanic,hemptied,?_⟩
    unfold Arena.reset
    dsimp only
    rw [hflag]
    exact ⟨rfl,rfl⟩

/-- A reset leaves nothing of a rewind before it, not even what is remembered of the room. -/
theorem reset_rewind (h : Wf A) (hk : Recallable A.blocks k)
    (hquiet : (A.dropRegistry.runDropsUntil boom 0).2.2 = false) :
    (A.rewind boom k).panic = none ∧ ((A.rewind boom k).arena.reset boom).panic = none ∧
      (A.rewind boom k).calls ++ ((A.rewind boom k).arena.reset boom).calls =
        (A.reset boom).calls ∧
      Alike (A.reset boom).arena ((A.rewind boom k).arena.reset boom).arena ∧
      ((A.rewind boom k).arena.reset boom).arena.largestRemaining =
        (A.reset boom).arena.largestRemaining ∧
      ((A.rewind boom k).arena.reset boom).arena.largestRemainingIdx =
        (A.reset boom).arena.largestRemainingIdx := by
  obtain ⟨hquietK,hquietM⟩ := quiet_later (Nat.zero_le k.dropRegistryLen) hquiet
  obtain ⟨hpanicK,hF⟩ := rewind_done h hk hquietK
  obtain ⟨hdone,hC,hhigh,hbest⟩ := reset_done h hquiet
  obtain ⟨hcallsK,hregK,-⟩ := rewind_cases boom h hk
  obtain ⟨hcallsM,hregM,-⟩ := reset_cases boom h
  have hchunksK := chunks_rewind boom A k
  have hentriesK : (A.rewind boom k).arena.dropRegistry.entries =
      A.dropRegistry.entries.take k.dropRegistryLen := by
    rw [hregK, DropRegistry.entries_runDropsUntil]
  have htrackK : (A.rewind boom k).arena.dropRegistry.isTracking = A.dropRegistry.isTracking := by
    rw [hregK, DropRegistry.isTracking_runDropsUntil]
  generalize hF' : (A.rewind boom k).arena = F at *
  rw [← hregK] at hquietM
  obtain ⟨hdone',hC',hhigh',hbest'⟩ := reset_done hF.wf hquietM
  obtain ⟨hcalls,hreg,-⟩ := reset_cases boom hF.wf
  have hchunks : chunks (F.reset boom).arena.blocks = chunks (A.reset boom).arena.blocks := by
    rw [chunks_reset, chunks_reset, hchunksK]
  obtain ⟨hlen,hget⟩ := chunks_get hchunks
  refine ⟨hpanicK,hdone',?_,?_,?_⟩
  · rw [hcallsK, hcalls, hcallsM, hentriesK]
    exact (callsUntil_split boom (Nat.zero_le _) _).symm
  · apply alike_emptied hC hC' hchunks (hhigh'.trans hhigh.symm) hF.reserved hF.growth hF.depth
    · rw [hreg, hregM, DropRegistry.runAllDrops, DropRegistry.runAllDrops,
        DropRegistry.entries_runDropsUntil, DropRegistry.entries_runDropsUntil]
      rfl
    · rw [hreg, hregM, DropRegistry.runAllDrops, DropRegistry.runAllDrops,
        DropRegistry.isTracking_runDropsUntil, DropRegistry.isTracking_runDropsUntil, htrackK]
  · have hsame := scanned_congr hlen (fun i hi => (Chunk.mk.inj (hget i hi)).2.1)
    rw [← hbest, ← hbest'] at hsame
    exact Prod.mk.inj hsame

end arenas

structure Leveled (w : World) : Prop where
  below : ∀ m ∈ w.marks, m.stamp ∈ w.valid → m.cp.dropRegistryLen ≤ w.arena.dropRegistry.len
  order : ∀ m ∈ w.marks, ∀ k ∈ w.marks, m.stamp ∈ w.valid → k.stamp ∈ w.valid →
    m.stamp ≤ k.stamp → m.cp.dropRegistryLen ≤ k.cp.dropRegistryLen

section worlds
variable {w : World}

theorem leveled_advance {w' : World} (h : Leveled w) (hmarks : w'.marks = w.marks)
    (hvalid : w'.valid = w.valid)
    (hlen : w.arena.dropRegistry.len ≤ w'.arena.dropRegistry.len) : Leveled w' := by
  constructor
  · rw [hmarks, hvalid]
    exact fun m hm hv => (h.below m hm hv).trans hlen
  · rw [hmarks, hvalid]
    exact h.order

theorem leveled_note (hinv : Inv w) (h : Leveled w) {n : ℕ} {opened : List Open} :
    Leveled { atDepth (w.note w.arena.checkpoint) n with opened := opened } := by
  have hpast : ∀ m ∈ w.marks, m.stamp < w.clock := fun m hm =>
    hinv.sound.marks_past m.spot (List.mem_map_of_mem hm)
  have hold : ∀ m ∈ w.marks, m.stamp ∈ w.clock :: w.valid → m.stamp ∈ w.valid := by
    intro m hm hv
    exact (List.mem_cons.mp hv).resolve_left (Nat.ne_of_lt (hpast m hm))
  constructor
  · intro m hm hv
    rcases List.mem_cons.mp hm with rfl | hm
    · exact le_refl _
    · exact h.below m hm (hold m hm hv)
  · intro m hm k hk hmv hkv hle
    rcases List.mem_cons.mp hm with rfl | hm
    · rcases List.mem_cons.mp hk with rfl | hk
      · exact le_refl _
      · exact absurd (hpast k hk) (Nat.not_lt.mpr hle)
    · rcases List.mem_cons.mp hk with rfl | hk
      · exact h.below m hm (hold m hm hmv)
      · exact h.order m hm k hk (hold m hm hmv) (hold k hk hkv) hle

theorem leveled_sweep (h : Leveled w) {s : Swept} {since target : ℕ}
    (hentries : s.arena.dropRegistry.entries = w.arena.dropRegistry.entries.take target)
    (htarget : ∀ m ∈ w.marks, m.stamp ∈ w.valid → m.stamp ≤ since →
      m.cp.dropRegistryLen ≤ target) : Leveled (w.sweep s since) := by
  constructor
  · intro m hm hv
    obtain ⟨hv,hle⟩ := mem_valid_sweep hv
    have hlen := h.below m hm hv
    have htarget := htarget m hm hv hle
    change _ ≤ s.arena.dropRegistry.len
    rw [DropRegistry.len_entries] at hlen ⊢
    rw [hentries, List.length_take]
    omega
  · intro m hm k hk hmv hkv hle
    exact h.order m hm k hk (mem_valid_sweep hmv).1 (mem_valid_sweep hkv).1 hle

theorem leveled_step (hinv : Inv w) (hstacked : Stacked w) (h : Leveled w) {op : Op}
    (hop : Permitted w op) : Leveled (w.step op) := by
  have hstep := stepped hinv hop.1
  generalize w.step op = w' at hstep
  cases hstep with
  | served _ _ hserved =>
    refine leveled_advance h rfl rfl ?_
    cases hserved with
    | carved _ _ _ hcarved _ hfills =>
      exact (le_of_eq (congrArg DropRegistry.len hcarved.registry.symm)).trans
        (len_le_of_fills hfills)
    | failed _ _ _ _ hunmoved => exact le_of_eq (congrArg DropRegistry.len hunmoved.registry.symm)
    | answered _ => exact le_refl _
  | declined _ => exact leveled_advance h rfl rfl (le_refl _)
  | ticked _ => exact leveled_advance h rfl rfl (le_refl _)
  | noted _ => exact leveled_note hinv h
  | @rewound boom n m opened hm htarget _ _ =>
    have hv := htarget _ hop.2
    obtain ⟨-,hregistry,-⟩ := rewind_cases boom (inv_depth hinv n).wf (hinv.recallable m hm)
    have hentries := congrArg DropRegistry.entries hregistry
    rw [DropRegistry.entries_runDropsUntil] at hentries
    have hmarked : ∀ k ∈ w.marks, k.stamp ∈ w.valid → k.stamp ≤ m.stamp →
        k.cp.dropRegistryLen ≤ m.cp.dropRegistryLen :=
      fun k hk hkv hle => h.order k hk m hm hkv hv hle
    have hlevel : Leveled (atDepth w n) := ⟨h.below,h.order⟩
    have hsweep := leveled_sweep hlevel hentries hmarked
    exact ⟨hsweep.below,hsweep.order⟩
  | @reset boom _ =>
    obtain ⟨-,hregistry,-⟩ := reset_cases boom hinv.wf
    have hentries := congrArg DropRegistry.entries hregistry
    rw [DropRegistry.runAllDrops, DropRegistry.entries_runDropsUntil] at hentries
    apply leveled_sweep h hentries
    intro m _ hv hle
    exact absurd (hstacked.valid_pos _ hv) (by omega)

theorem leveled_reached (h : Reached Permitted w) : Inv w ∧ Stacked w ∧ Leveled w := by
  obtain ⟨sys,feature,initialBytes,A,ops,hs,hA,halong,rfl⟩ := h
  obtain ⟨hwf,-,-,-,-,hregistry⟩ := wf_withCapacity hs hA
  refine run_invariant World.step Permitted (fun w => Inv w ∧ Stacked w ∧ Leveled w)
    (fun w op hw hop => ?_) _ ops ?_ halong
  · obtain ⟨hinv,hstacked,hleveled⟩ := hw
    exact ⟨inv_step hinv hop.1,stacked_step hinv hstacked hop.1 hop.2,
      leveled_step hinv hstacked hleveled hop⟩
  · exact ⟨inv_start hwf (by rw [hregistry, DropRegistry.entries_new]),stacked_start A,nofun,nofun⟩

/-- Going back to a checkpoint by way of a later one: as long as no destructor on the way panics,
the same destructors run in the same order and the same arena is left. -/
theorem rewinds_compose (h : Reached Permitted w) {m k : Mark} (hm : m ∈ w.marks)
    (hk : k ∈ w.marks) (hmv : m.stamp ∈ w.valid) (hkv : k.stamp ∈ w.valid)
    (hle : m.stamp ≤ k.stamp) {boom : ℕ → ℕ → Bool}
    (hquiet : (w.arena.rewind boom m.cp).panic = none) :
    (w.arena.rewind boom k.cp).panic = none ∧
      ((w.arena.rewind boom k.cp).arena.rewind boom m.cp).panic = none ∧
      (w.arena.rewind boom k.cp).calls ++
          ((w.arena.rewind boom k.cp).arena.rewind boom m.cp).calls =
        (w.arena.rewind boom m.cp).calls ∧
      Alike (w.arena.rewind boom m.cp).arena
        ((w.arena.rewind boom k.cp).arena.rewind boom m.cp).arena := by
  obtain ⟨hinv,hstacked,hleveled⟩ := leveled_reached h
  apply rewind_rewind hinv.wf (hinv.recallable m hm) (hinv.recallable k hk)
    (hstacked.order m hm k hk hmv hkv hle) (hstacked.below k hk hkv)
    (hleveled.order m hm k hk hmv hkv hle)
  rcases (rewind_cases boom hinv.wf (hinv.recallable m hm)).2.2 with ⟨hpanic,-⟩ | ⟨-,hflag,-⟩
  · exact nomatch hquiet.symm.trans hpanic
  · exact hflag

def threeValues : List Op :=
  [.request noMemory ⟨.value eightBytes,false⟩,.checkpoint,
    .request noMemory ⟨.value eightBytes,false⟩,.checkpoint,
    .request noMemory ⟨.value eightBytes,false⟩]

theorem reached_threeValues {A : Arena} (hA : smallArena true 64 = some A) :
    Reached Permitted (run World.step (World.start A) threeValues) := by
  apply reached_small (by norm_num) hA
  exact ⟨⟨⟨grants_noMemory _,trivial⟩,trivial⟩,⟨trivial,trivial⟩,
    ⟨⟨grants_noMemory _,trivial⟩,trivial⟩,⟨trivial,trivial⟩,
    ⟨⟨grants_noMemory _,trivial⟩,trivial⟩,trivial⟩

theorem rewinds_compose_threeValues : ∃ w m k, Reached Permitted w ∧ w.marks = [k,m] ∧
    m.cp = ⟨0,8,8,1⟩ ∧ k.cp = ⟨0,16,16,2⟩ ∧
      Alike (w.arena.rewind quiet m.cp).arena
        ((w.arena.rewind quiet k.cp).arena.rewind quiet m.cp).arena := by
  obtain ⟨A,hA⟩ : ∃ A, smallArena true 64 = some A := ⟨_,rfl⟩
  have hreached := reached_threeValues hA
  generalize hw : run World.step (World.start A) threeValues = w at hreached
  have hmarks : w.marks = [⟨4,⟨0,16,16,2⟩⟩,⟨2,⟨0,8,8,1⟩⟩] := by
    subst hw
    cases hA
    rfl
  have hvalid : w.valid = [4,2] := by
    subst hw
    cases hA
    rfl
  refine ⟨w,⟨2,⟨0,8,8,1⟩⟩,⟨4,⟨0,16,16,2⟩⟩,hreached,hmarks,rfl,rfl,?_⟩
  refine (rewinds_compose hreached (m := ⟨2,⟨0,8,8,1⟩⟩) (k := ⟨4,⟨0,16,16,2⟩⟩) ?_ ?_ ?_ ?_ ?_ ?_).2.2.2
  · rw [hmarks]
    exact List.mem_cons_of_mem _ List.mem_cons_self
  · rw [hmarks]
    exact List.mem_cons_self
  · rw [hvalid]
    exact List.mem_cons_of_mem _ List.mem_cons_self
  · rw [hvalid]
    exact List.mem_cons_self
  · norm_num
  · subst hw
    cases hA
    decide +kernel

/-- Rewinding first, to any checkpoint of the arena, adds nothing to a reset and takes nothing from
it. -/
theorem reset_absorbs (h : Reached Honest w) {k : Mark} (hk : k ∈ w.marks) {boom : ℕ → ℕ → Bool}
    (hquiet : (w.arena.reset boom).panic = none) :
    (w.arena.rewind boom k.cp).panic = none ∧
      ((w.arena.rewind boom k.cp).arena.reset boom).panic = none ∧
      (w.arena.rewind boom k.cp).calls ++ ((w.arena.rewind boom k.cp).arena.reset boom).calls =
        (w.arena.reset boom).calls ∧
      Alike (w.arena.reset boom).arena ((w.arena.rewind boom k.cp).arena.reset boom).arena ∧
      ((w.arena.rewind boom k.cp).arena.reset boom).arena.largestRemaining =
        (w.arena.reset boom).arena.largestRemaining ∧
      ((w.arena.rewind boom k.cp).arena.reset boom).arena.largestRemainingIdx =
        (w.arena.reset boom).arena.largestRemainingIdx := by
  have hinv := inv_reached (fun _ _ hop => hop) h
  apply reset_rewind hinv.wf (hinv.recallable k hk)
  rcases (reset_cases boom hinv.wf).2.2 with ⟨hpanic,-⟩ | ⟨-,hflag,-⟩
  · exact nomatch hquiet.symm.trans hpanic
  · exact hflag

theorem reset_absorbs_threeValues : ∃ w k, Reached Honest w ∧ k ∈ w.marks ∧
    (w.arena.reset quiet).calls.length = 3 ∧
      (w.arena.rewind quiet k.cp).calls ++
          ((w.arena.rewind quiet k.cp).arena.reset quiet).calls = (w.arena.reset quiet).calls := by
  obtain ⟨A,hA⟩ : ∃ A, smallArena true 64 = some A := ⟨_,rfl⟩
  have hreached : Reached Honest (run World.step (World.start A) threeValues) :=
    reached_small (by norm_num) hA threeValues ⟨⟨grants_noMemory _,trivial⟩,trivial,
      ⟨grants_noMemory _,trivial⟩,trivial,⟨grants_noMemory _,trivial⟩,trivial⟩
  generalize hw : run World.step (World.start A) threeValues = w at hreached
  have hmark : (⟨4,⟨0,16,16,2⟩⟩ : Mark) ∈ w.marks := by
    subst hw
    cases hA
    exact List.mem_cons_self
  refine ⟨w,⟨4,⟨0,16,16,2⟩⟩,hreached,hmark,?_,(reset_absorbs hreached hmark ?_).2.2.1⟩
  · subst hw
    cases hA
    decide +kernel
  · subst hw
    cases hA
    decide +kernel

end worlds
end FastArena.SweepAlgebra
