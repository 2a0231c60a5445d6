import FastArena.RawRequest

/-!
# Rewind and reset

Both run destructors first and move the position only if none of them panics.
A rewind puts the arena at the checkpoint's position with every later block
empty, also when the checkpoint is stale; a reset puts it at the start of the
first block.
-/

set_option autoImplicit false

namespace FastArena.ArenaSweep
open FastArena.MachineWord FastArena.ByteSpan FastArena.ArenaBlock FastArena.InlineStorage
  FastArena.DropTracking FastArena.ArenaCore FastArena.ArenaInvariant

variable {A : Arena} {cp : Checkpoint}

@[simp] theorem len_clearOffsets (n i : ℕ) (blocks : Blocks) :
    (clearOffsets n i blocks).len = blocks.len := by
  induction n generalizing i blocks with
  | zero => rfl
  | succ n ih => rw [clearOffsets, ih, InlineVec.len_modify]

theorem get_clearOffsets (n i : ℕ) (blocks : Blocks) {j : ℕ} (hj : j < blocks.len) :
    (clearOffsets n i blocks).get j =
      if i ≤ j ∧ j < i+n then { blocks.get j with offset := 0 } else blocks.get j := by
  induction n generalizing i blocks with
  | zero => rw [clearOffsets, if_neg (by omega)]
  | succ n ih =>
    rw [clearOffsets, ih (i+1) _ (by rwa [InlineVec.len_modify])]
    by_cases hji : j = i
    · subst hji
      rw [if_neg (by omega), if_pos (by omega), InlineVec.get_modify, if_pos ⟨rfl,hj⟩]
    · have hsame : (blocks.modify i (fun b => { b with offset := 0 })).get j = blocks.get j := by
        rw [InlineVec.get_modify, if_neg (fun hh => hji hh.1)]
      rw [hsame]
      by_cases hlater : i+1 ≤ j ∧ j < i+1+n
      · rw [if_pos hlater, if_pos (by omega)]
      · rw [if_neg hlater, if_neg (by omega)]

theorem laid_clearOffsets (n i : ℕ) {blocks : Blocks} (h : Laid blocks) :
    Laid (clearOffsets n i blocks) ∧ Grown blocks (clearOffsets n i blocks) := by
  induction n generalizing i blocks with
  | zero => exact ⟨h,grown_refl blocks⟩
  | succ n ih =>
    obtain ⟨hlaid,hgrown⟩ := laid_offset h i 0 (Nat.zero_le _)
    obtain ⟨hlaid',hgrown'⟩ := ih (i+1) hlaid
    exact ⟨hlaid',grown_trans hgrown hgrown'⟩

/-- The checkpoint names a place in the arena, past or future. -/
structure Recallable (blocks : Blocks) (cp : Checkpoint) : Prop where
  idx_lt : cp.blockIdx < blocks.len
  offset_le : cp.offset ≤ (blocks.get cp.blockIdx).capacity

theorem recallable_grown {blocks blocks' : Blocks} (h : Recallable blocks cp)
    (hgrown : Grown blocks blocks') : Recallable blocks' cp where
  idx_lt := lt_of_lt_of_le h.idx_lt hgrown.len_le
  offset_le := by
    rw [(extent_inj (hgrown.extent_eq _ h.idx_lt)).2]
    exact h.offset_le

theorem recallable_checkpoint (h : Wf A) : Recallable A.blocks A.checkpoint :=
  ⟨current_lt h,curOffset_le h⟩

def place (cp : Checkpoint) : Pos := toLex (cp.blockIdx,cp.offset)

structure Rewound (A : Arena) (cp : Checkpoint) (A' : Arena) : Prop where
  wf : Wf A'
  grown : Grown A.blocks A'.blocks
  len_eq : A'.blocks.len = A.blocks.len
  current_eq : A'.current = cp.blockIdx
  base_eq : A'.curBase = (A.blocks.get cp.blockIdx).base
  ptr_eq : A'.curPtr = (A.blocks.get cp.blockIdx).base + cp.offset
  bytes : A'.bytesAllocated = wsub cp.bytesAllocated cp.offset
  reserved : A'.bytesReserved = A.bytesReserved
  below : ∀ i < cp.blockIdx, i < A.blocks.len → A'.blocks.get i = A.blocks.get i
  at_cp : (A'.blocks.get cp.blockIdx).offset = cp.offset
  above : ∀ i < A.blocks.len, cp.blockIdx < i → (A'.blocks.get i).offset = 0
  growth : A'.nextBlockSize = A.nextBlockSize
  depth : A'.txnDepth = A.txnDepth

theorem rewound_offset {A' : Arena} (h : Rewound A cp A') : A'.curOffset = cp.offset := by
  rw [curOffset_eq h.wf, h.ptr_eq, h.base_eq, Nat.add_sub_cancel_left]

theorem rewound_position {A' : Arena} (h : Rewound A cp A') : position A' = place cp := by
  rw [position, place, h.current_eq, rewound_offset h]

theorem wf_withRegistry (h : Wf A) (r : DropRegistry) : Wf { A with dropRegistry := r } :=
  { h with }

theorem rewound_blocks (h : Wf A) (hcp : Recallable A.blocks cp) {blocks : Blocks}
    (hblocks : blocks = (clearOffsets (A.current+1 - (cp.blockIdx+1)) (cp.blockIdx+1)
      A.blocks).modify cp.blockIdx (fun b => { b with offset := cp.offset })) :
    Laid blocks ∧ Grown A.blocks blocks ∧ blocks.len = A.blocks.len ∧
      (∀ i < cp.blockIdx, i < A.blocks.len → blocks.get i = A.blocks.get i) ∧
      (blocks.get cp.blockIdx).offset = cp.offset ∧
      ∀ i < A.blocks.len, cp.blockIdx < i → (blocks.get i).offset = 0 := by
  obtain ⟨hlaid,hgrown⟩ := laid_clearOffsets (A.current+1 - (cp.blockIdx+1)) (cp.blockIdx+1) h.laid
  have hroom : cp.offset ≤ ((clearOffsets (A.current+1 - (cp.blockIdx+1)) (cp.blockIdx+1)
      A.blocks).get cp.blockIdx).capacity := by
    rw [(extent_inj (hgrown.extent_eq _ hcp.idx_lt)).2]
    exact hcp.offset_le
  obtain ⟨hlaid',hgrown'⟩ := laid_offset hlaid cp.blockIdx cp.offset hroom
  have hother : ∀ i < A.blocks.len, i ≠ cp.blockIdx → blocks.get i =
      (clearOffsets (A.current+1 - (cp.blockIdx+1)) (cp.blockIdx+1) A.blocks).get i := by
    intro i _ hne
    rw [hblocks, InlineVec.get_modify, if_neg (fun hh => hne hh.1)]
  refine ⟨by rw [hblocks]; exact hlaid',by rw [hblocks]; exact grown_trans hgrown hgrown',
    by rw [hblocks, InlineVec.len_modify, len_clearOffsets],?_,?_,?_⟩
  · intro i hlt hi
    rw [hother i hi (by omega), get_clearOffsets _ _ _ hi, if_neg (by omega)]
  · rw [hblocks, InlineVec.get_modify, if_pos ⟨rfl,by rw [len_clearOffsets]; exact hcp.idx_lt⟩]
  · -- blocks up to the old current one are cleared here, those after it were empty before
    intro i hi hlt
    rw [hother i hi (by omega), get_clearOffsets _ _ _ hi]
    split
    · rfl
    · exact h.tail i hi (by omega)

theorem rewound_of (h : Wf A) (hcp : Recallable A.blocks cp) (r : DropRegistry) {B : Arena}
    (hB : B = { A with
      dropRegistry := r
      blocks := (clearOffsets (A.current+1 - (cp.blockIdx+1)) (cp.blockIdx+1)
        A.blocks).modify cp.blockIdx (fun b => { b with offset := cp.offset })
      bytesAllocated := wsub cp.bytesAllocated cp.offset }) :
    Rewound A cp (B.setCurrentBlock cp.blockIdx) ∧
      (B.setCurrentBlock cp.blockIdx).dropRegistry = r := by
  obtain ⟨hlaid,hgrown,hlen,hbelow,hat,habove⟩ := rewound_blocks h hcp rfl
  have hidx := hcp.idx_lt
  have hhigh := h.high_lt
  have hlargest := h.largest_lt
  rw [← hlen] at hidx hhigh hlargest
  have hreserved := h.reserved.trans (totalCapacity_congr hlen hgrown).symm
  have hwf : Wf (B.setCurrentBlock cp.blockIdx) := by
    subst hB
    exact wf_setCurrentBlock hlaid hidx hhigh hlargest
      (fun i hi hlt => habove i (hlen ▸ hi) hlt) h.growth_min h.growth_max hreserved (wsub_lt _ _)
  obtain ⟨rem,best,-,heq⟩ := setCurrentBlock_spec B cp.blockIdx (by subst hB; exact hidx)
    (by subst hB; exact hlargest)
  have htop : (A.blocks.get cp.blockIdx).base + (A.blocks.get cp.blockIdx).capacity ≤ 2^63 :=
    (h.laid.placed _ hcp.idx_lt).below_top
  have hroom := hcp.offset_le
  subst hB
  rw [heq] at hwf ⊢
  refine ⟨?_,rfl⟩
  exact {
    wf := hwf
    grown := hgrown
    len_eq := hlen
    current_eq := rfl
    base_eq := (extent_inj (hgrown.extent_eq _ hcp.idx_lt)).1
    ptr_eq := by
      dsimp only
      rw [hat, (extent_inj (hgrown.extent_eq _ hcp.idx_lt)).1, wadd_eq (by omega)]
    bytes := rfl
    reserved := rfl
    below := hbelow
    at_cp := hat
    above := habove
    growth := rfl
    depth := rfl }

/-- A rewind runs the destructors above the checkpoint and, unless one of them panics, moves the
arena there. -/
theorem rewind_cases (boom : ℕ → ℕ → Bool) (h : Wf A) (hcp : Recallable A.blocks cp) :
    (A.rewind boom cp).calls = callsUntil boom cp.dropRegistryLen A.dropRegistry.entries ∧
      (A.rewind boom cp).arena.dropRegistry =
        (A.dropRegistry.runDropsUntil boom cp.dropRegistryLen).2.1 ∧
      (((A.rewind boom cp).panic = some dropPanic ∧
          (A.dropRegistry.runDropsUntil boom cp.dropRegistryLen).2.2 = true ∧
          (A.rewind boom cp).arena = { A with
            dropRegistry := (A.dropRegistry.runDropsUntil boom cp.dropRegistryLen).2.1 }) ∨
        ((A.rewind boom cp).panic = none ∧
          (A.dropRegistry.runDropsUntil boom cp.dropRegistryLen).2.2 = false ∧
          Rewound A cp (A.rewind boom cp).arena)) := by
  have hcalls := A.dropRegistry.calls_runDropsUntil boom cp.dropRegistryLen
  unfold Arena.rewind
  rw [if_pos hcp.idx_lt]
  dsimp only
  cases hpanic : (A.dropRegistry.runDropsUntil boom cp.dropRegistryLen).2.2 with
  | true => exact ⟨hcalls,rfl,Or.inl ⟨rfl,rfl,rfl⟩⟩
  | false =>
    obtain ⟨hrewound,hregistry⟩ := rewound_of h hcp
      (A.dropRegistry.runDropsUntil boom cp.dropRegistryLen).2.1 rfl
    exact ⟨hcalls,hregistry,Or.inr ⟨rfl,rfl,hrewound⟩⟩

structure Emptied (A A' : Arena) : Prop where
  wf : Wf A'
  grown : Grown A.blocks A'.blocks
  len_eq : A'.blocks.len = A.blocks.len
  current_eq : A'.current = 0
  ptr_eq : A'.curPtr = A'.curBase
  bytes : A'.bytesAllocated = 0
  reserved : A'.bytesReserved = A.bytesReserved
  empty : ∀ i < A.blocks.len, (A'.blocks.get i).offset = 0
  growth : A'.nextBlockSize = A.nextBlockSize
  depth : A'.txnDepth = A.txnDepth

theorem emptied_position {A' : Arena} (h : Emptied A A') : position A' = toLex (0,0) := by
  rw [position, h.current_eq, curOffset_eq h.wf, h.ptr_eq, Nat.sub_self]

theorem emptied_of (h : Wf A) (r : DropRegistry) {blocks : Blocks} {rem best : ℕ}
    (hblocks : blocks = clearOffsets (A.highWaterMark+1) 0 A.blocks) (hbest : best < A.blocks.len) :
    Emptied A { A with
      dropRegistry := r
      blocks := blocks
      highWaterMark := 0
      bytesAllocated := 0
      current := 0
      curBase := (blocks.get 0).base
      curPtr := (blocks.get 0).base
      curEnd := wadd (blocks.get 0).base (blocks.get 0).capacity
      largestRemaining := rem
      largestRemainingIdx := best } := by
  obtain ⟨hlaid,hgrown⟩ := laid_clearOffsets (A.highWaterMark+1) 0 h.laid
  have hlen := len_clearOffsets (A.highWaterMark+1) 0 A.blocks
  have hempty : ∀ i < A.blocks.len,
      ((clearOffsets (A.highWaterMark+1) 0 A.blocks).get i).offset = 0 := by
    intro i hi
    rw [get_clearOffsets _ _ _ hi]
    split
    · rfl
    · exact h.tail i hi (by have := h.current_le; omega)
  rw [← hblocks] at hlaid hgrown hlen hempty
  have hfirst : 0 < blocks.len := by
    have := h.high_lt
    omega
  have htop : (blocks.get 0).base + (blocks.get 0).capacity ≤ 2^63 :=
    (hlaid.placed 0 hfirst).below_top
  exact {
    wf := {
      laid := hlaid
      current_le := le_refl 0
      high_lt := hfirst
      largest_lt := by rw [hlen]; exact hbest
      base_eq := rfl
      end_eq := wadd_eq (lt_of_le_of_lt htop (by norm_num))
      base_le := le_refl _
      ptr_le := by
        dsimp only
        rw [wadd_eq (lt_of_le_of_lt htop (by norm_num))]
        exact Nat.le_add_right _ _
      tail := fun i hi _ => hempty i (hlen ▸ hi)
      growth_min := h.growth_min
      growth_max := h.growth_max
      reserved := h.reserved.trans (totalCapacity_congr hlen hgrown).symm
      allocated_lt := by norm_num }
    grown := hgrown
    len_eq := hlen
    current_eq := rfl
    ptr_eq := rfl
    bytes := rfl
    reserved := rfl
    empty := hempty
    growth := rfl
    depth := rfl }

theorem reset_cases (boom : ℕ → ℕ → Bool) (h : Wf A) :
    (A.reset boom).calls = callsUntil boom 0 A.dropRegistry.entries ∧
      (A.reset boom).arena.dropRegistry = (A.dropRegistry.runAllDrops boom).2.1 ∧
      (((A.reset boom).panic = some dropPanic ∧
          (A.dropRegistry.runAllDrops boom).2.2 = true ∧
          (A.reset boom).arena =
            { A with dropRegistry := (A.dropRegistry.runAllDrops boom).2.1 }) ∨
        ((A.reset boom).panic = none ∧ (A.dropRegistry.runAllDrops boom).2.2 = false ∧
          Emptied A (A.reset boom).arena)) := by
  have hcalls := A.dropRegistry.calls_runDropsUntil boom 0
  have hpos : 0 < A.blocks.len := by
    have := h.high_lt
    omega
  have hlen := len_clearOffsets (A.highWaterMark+1) 0 A.blocks
  unfold Arena.reset
  dsimp only
  cases hpanic : (A.dropRegistry.runAllDrops boom).2.2 with
  | true => exact ⟨hcalls,rfl,Or.inl ⟨rfl,rfl,rfl⟩⟩
  | false =>
    refine ⟨hcalls,rfl,Or.inr ⟨rfl,rfl,?_⟩⟩
    apply emptied_of h _ rfl
    rw [hlen]
    split
    · exact largestFrom_lt _ _ _ _ _ _ (by omega) hpos
    · exact hpos

end FastArena.ArenaSweep
