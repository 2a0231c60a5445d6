import FastArena.ArenaCore
import FastArena.ByteSpan
import Mathlib.Data.Prod.Lex

/-!
# The arena's invariant

The cached pointers belong to the current block, blocks share no byte, and
every block after the current one is empty. The offset of the current block is
stale until the arena leaves it, so the invariant says nothing about it beyond
its bound. Each way a request can end has one lemma saying all it did.
-/

set_option autoImplicit false

namespace FastArena.ArenaInvariant
open FastArena.MachineWord FastArena.ByteSpan FastArena.ArenaBlock FastArena.InlineStorage
  FastArena.DropTracking FastArena.ArenaCore

/-- Blocks as the system allocator granted them: each in its place and no two overlapping. -/
structure Laid (blocks : Blocks) : Prop where
  placed : ∀ i < blocks.len, Placed (blocks.get i)
  apart : ∀ i < blocks.len, ∀ j < blocks.len, i ≠ j →
    (blocks.get i).extent.Apart (blocks.get j).extent

def totalCapacity (blocks : Blocks) : ℕ := ∑ i ∈ Finset.range blocks.len, (blocks.get i).capacity

structure Wf (A : Arena) : Prop where
  laid : Laid A.blocks
  current_le : A.current ≤ A.highWaterMark
  high_lt : A.highWaterMark < A.blocks.len
  largest_lt : A.largestRemainingIdx < A.blocks.len
  base_eq : A.curBase = (A.blocks.get A.current).base
  end_eq : A.curEnd = A.curBase + (A.blocks.get A.current).capacity
  base_le : A.curBase ≤ A.curPtr
  ptr_le : A.curPtr ≤ A.curEnd
  tail : ∀ i < A.blocks.len, A.current < i → (A.blocks.get i).offset = 0
  growth_min : minBlockSize ≤ A.nextBlockSize
  growth_max : A.nextBlockSize ≤ maxBlockSize
  reserved : A.bytesReserved = totalCapacity A.blocks
  allocated_lt : A.bytesAllocated < 2^64

structure Anchored (A : Arena) : Prop where
  placed : Placed (A.blocks.get A.current)
  base_eq : A.curBase = (A.blocks.get A.current).base
  end_eq : A.curEnd = A.curBase + (A.blocks.get A.current).capacity
  base_le : A.curBase ≤ A.curPtr
  ptr_le : A.curPtr ≤ A.curEnd

/-- What the arena relies on when it asks for memory: blocks granted are fresh, aligned as
asked, and clear of the top of the address space. -/
def Grants (sys : SystemAlloc) (blocks : Blocks) : Prop :=
  ∀ capacity align base, sys capacity align = some base →
    0 < base ∧ align ∣ base ∧ base + capacity ≤ addressTop ∧
      ∀ i < blocks.len, (⟨base,capacity⟩ : Span).Apart (blocks.get i).extent

abbrev Pos := ℕ ×ₗ ℕ

/-- Where the next byte goes: blocks in order, then offsets within the block. -/
def position (A : Arena) : Pos := toLex (A.current,A.curOffset)

structure Grown (blocks blocks' : Blocks) : Prop where
  len_le : blocks.len ≤ blocks'.len
  extent_eq : ∀ i < blocks.len, (blocks'.get i).extent = (blocks.get i).extent

theorem grown_refl (blocks : Blocks) : Grown blocks blocks := ⟨le_refl _,fun _ _ => rfl⟩

theorem grown_trans {a b c : Blocks} (hab : Grown a b) (hbc : Grown b c) : Grown a c :=
  ⟨hab.len_le.trans hbc.len_le,
    fun i hi => (hbc.extent_eq i (lt_of_lt_of_le hi hab.len_le)).trans (hab.extent_eq i hi)⟩

theorem extent_inj {b b' : Block} (h : b'.extent = b.extent) :
    b'.base = b.base ∧ b'.capacity = b.capacity := by
  simpa [Block.extent] using h

theorem anchored_end {A : Arena} (h : Anchored A) : A.curEnd ≤ addressTop := by
  rw [h.end_eq, h.base_eq]
  exact h.placed.below_top

theorem anchored_offset {A : Arena} (h : Anchored A) : A.curOffset = A.curPtr - A.curBase := by
  have htop : A.curEnd ≤ 2^63 := anchored_end h
  have hptr := h.ptr_le
  exact wsub_eq h.base_le (by omega)

section wf
variable {A : Arena} (h : Wf A)
include h

theorem current_lt : A.current < A.blocks.len := lt_of_le_of_lt h.current_le h.high_lt

theorem current_placed : Placed (A.blocks.get A.current) := h.laid.placed _ (current_lt h)

theorem anchored : Anchored A := ⟨current_placed h,h.base_eq,h.end_eq,h.base_le,h.ptr_le⟩

theorem curEnd_le : A.curEnd ≤ addressTop := anchored_end (anchored h)

theorem curOffset_eq : A.curOffset = A.curPtr - A.curBase := anchored_offset (anchored h)

theorem curPtr_eq : A.curPtr = A.curBase + A.curOffset := by
  rw [curOffset_eq h]
  have := h.base_le
  omega

theorem curOffset_le : A.curOffset ≤ (A.blocks.get A.current).capacity := by
  rw [curOffset_eq h]
  have hptr := h.ptr_le
  rw [h.end_eq] at hptr
  omega

end wf

theorem totalCapacity_le {blocks : Blocks} (h : Laid blocks) : totalCapacity blocks ≤ addressTop :=
  total_size_le blocks.len addressTop (fun i => (blocks.get i).extent)
    (fun i hi => (h.placed i hi).below_top) h.apart

theorem totalCapacity_push (blocks : Blocks) (b : Block) :
    totalCapacity (blocks.push b) = totalCapacity blocks + b.capacity := by
  rw [totalCapacity, InlineVec.len_push, Finset.sum_range_succ, InlineVec.get_push, if_pos rfl]
  congr 1
  apply Finset.sum_congr rfl
  intro i hi
  rw [InlineVec.get_push, if_neg (Nat.ne_of_lt (Finset.mem_range.mp hi))]

theorem totalCapacity_congr {blocks blocks' : Blocks} (hlen : blocks'.len = blocks.len)
    (h : Grown blocks blocks') : totalCapacity blocks' = totalCapacity blocks := by
  rw [totalCapacity, totalCapacity, hlen]
  apply Finset.sum_congr rfl
  intro i hi
  exact (extent_inj (h.extent_eq i (Finset.mem_range.mp hi))).2

theorem grown_modify (blocks : Blocks) (i : ℕ) {f : Block → Block}
    (hf : (f (blocks.get i)).extent = (blocks.get i).extent) :
    Grown blocks (blocks.modify i f) := by
  refine ⟨le_of_eq (InlineVec.len_modify _ _ _).symm,fun j _ => ?_⟩
  rw [InlineVec.get_modify]
  split
  · next hj => rw [hj.1, hf]
  · rfl

theorem laid_offset {blocks : Blocks} (h : Laid blocks) (i o : ℕ)
    (ho : o ≤ (blocks.get i).capacity) :
    Laid (blocks.modify i (fun b => { b with offset := o })) ∧
      Grown blocks (blocks.modify i (fun b => { b with offset := o })) := by
  have hget : ∀ j, ((blocks.modify i (fun b => { b with offset := o })).get j).extent =
      (blocks.get j).extent := by
    intro j
    rw [InlineVec.get_modify]
    split
    · next hj => rw [hj.1]; rfl
    · rfl
  refine ⟨⟨?_,?_⟩,⟨by simp,fun j _ => hget j⟩⟩
  · intro j hj
    rw [InlineVec.len_modify] at hj
    rw [InlineVec.get_modify]
    split
    · next hji =>
      obtain rfl := hji.1
      exact ⟨(h.placed j hj).nonnull,(h.placed j hj).capacity_pos,(h.placed j hj).align_pow,
        (h.placed j hj).align_min,(h.placed j hj).aligned,(h.placed j hj).below_top,ho⟩
    · exact h.placed j hj
  · intro j hj k hk hjk
    rw [InlineVec.len_modify] at hj hk
    rw [hget j, hget k]
    exact h.apart j hj k hk hjk

theorem laid_push {blocks : Blocks} (h : Laid blocks) {b : Block} (hb : Placed b)
    (hfresh : ∀ i < blocks.len, b.extent.Apart (blocks.get i).extent) :
    Laid (blocks.push b) ∧ Grown blocks (blocks.push b) := by
  refine ⟨⟨?_,?_⟩,⟨by simp,?_⟩⟩
  · intro i hi
    rw [InlineVec.len_push] at hi
    rw [InlineVec.get_push]
    split
    · exact hb
    · exact h.placed i (by omega)
  · intro i hi j hj hij
    rw [InlineVec.len_push] at hi hj
    rw [InlineVec.get_push, InlineVec.get_push]
    split
    · rw [if_neg (by omega)]
      exact hfresh j (by omega)
    · split
      · exact apart_symm (hfresh i (by omega))
      · exact h.apart i (by omega) j (by omega) hij
  · intro i hi
    rw [InlineVec.get_push, if_neg (Nat.ne_of_lt hi)]

theorem largestFrom_lt (room : ℕ → ℕ) (n i maxRem maxIdx len : ℕ) (hn : i+n ≤ len)
    (hidx : maxIdx < len) : (largestFrom room n i maxRem maxIdx).2 < len := by
  induction n generalizing i maxRem maxIdx with
  | zero => exact hidx
  | succ n ih =>
    unfold largestFrom
    split
    · exact ih (i+1) _ _ (by omega) (by omega)
    · exact ih (i+1) _ _ (by omega) hidx

theorem largestFrom_congr {room room' : ℕ → ℕ} (n i maxRem maxIdx : ℕ)
    (h : ∀ j, i ≤ j → j < i+n → room' j = room j) :
    largestFrom room' n i maxRem maxIdx = largestFrom room n i maxRem maxIdx := by
  induction n generalizing i maxRem maxIdx with
  | zero => rfl
  | succ n ih =>
    unfold largestFrom
    rw [h i (le_refl i) (by omega)]
    split
    · exact ih (i+1) _ _ (fun j hlo hhi => h j (by omega) (by omega))
    · exact ih (i+1) _ _ (fun j hlo hhi => h j (by omega) (by omega))

def scanned (blocks : Blocks) : ℕ × ℕ :=
  if blocks.len > 1 then largestFrom (fun i => (blocks.get i).capacity) (blocks.len-1) 1 0 0
  else (0,0)

theorem scanned_congr {blocks blocks' : Blocks} (hlen : blocks'.len = blocks.len)
    (hcap : ∀ i < blocks.len, (blocks'.get i).capacity = (blocks.get i).capacity) :
    scanned blocks' = scanned blocks := by
  unfold scanned
  rw [hlen]
  split
  · exact largestFrom_congr _ _ _ _ (fun j _ hj => hcap j (by omega))
  · rfl

@[simp] theorem setCurrentBlock_blocks (A : Arena) (idx : ℕ) :
    (A.setCurrentBlock idx).blocks = A.blocks := by
  unfold Arena.setCurrentBlock
  dsimp only
  split <;> rfl

@[simp] theorem setCurrentBlock_current (A : Arena) (idx : ℕ) :
    (A.setCurrentBlock idx).current = idx := by
  unfold Arena.setCurrentBlock
  dsimp only
  split <;> rfl

@[simp] theorem setCurrentBlock_nextBlockSize (A : Arena) (idx : ℕ) :
    (A.setCurrentBlock idx).nextBlockSize = A.nextBlockSize := by
  unfold Arena.setCurrentBlock
  dsimp only
  split <;> rfl

@[simp] theorem setCurrentBlock_registry (A : Arena) (idx : ℕ) :
    (A.setCurrentBlock idx).dropRegistry = A.dropRegistry := by
  unfold Arena.setCurrentBlock
  dsimp only
  split <;> rfl

/-- Entering a block sets the cached pointers from it; only the room shortcut is left open. -/
theorem setCurrentBlock_spec (A : Arena) (idx : ℕ) (hidx : idx < A.blocks.len)
    (hlargest : A.largestRemainingIdx < A.blocks.len) :
    ∃ rem best, best < A.blocks.len ∧ A.setCurrentBlock idx = { A with
      current := idx
      highWaterMark := if idx > A.highWaterMark then idx else A.highWaterMark
      curBase := (A.blocks.get idx).base
      curPtr := wadd (A.blocks.get idx).base (A.blocks.get idx).offset
      curEnd := wadd (A.blocks.get idx).base (A.blocks.get idx).capacity
      largestRemaining := rem
      largestRemainingIdx := best } := by
  unfold Arena.setCurrentBlock Arena.computeLargestRemaining
  dsimp only
  split
  · exact ⟨_,_,hlargest,rfl⟩
  · exact ⟨_,_,largestFrom_lt _ _ _ _ _ _ (by omega) hidx,rfl⟩

theorem wf_setCurrentBlock {A : Arena} {idx : ℕ} (hlaid : Laid A.blocks)
    (hidx : idx < A.blocks.len) (hhigh : A.highWaterMark < A.blocks.len)
    (hlargest : A.largestRemainingIdx < A.blocks.len)
    (htail : ∀ i < A.blocks.len, idx < i → (A.blocks.get i).offset = 0)
    (hmin : minBlockSize ≤ A.nextBlockSize) (hmax : A.nextBlockSize ≤ maxBlockSize)
    (hreserved : A.bytesReserved = totalCapacity A.blocks) (hbytes : A.bytesAllocated < 2^64) :
    Wf (A.setCurrentBlock idx) := by
  obtain ⟨rem,best,hbest,heq⟩ := setCurrentBlock_spec A idx hidx hlargest
  have htop : (A.blocks.get idx).base + (A.blocks.get idx).capacity ≤ 2^63 :=
    (hlaid.placed idx hidx).below_top
  have hoff := (hlaid.placed idx hidx).offset_le
  have hptr : wadd (A.blocks.get idx).base (A.blocks.get idx).offset =
      (A.blocks.get idx).base + (A.blocks.get idx).offset := wadd_eq (by omega)
  have hend : wadd (A.blocks.get idx).base (A.blocks.get idx).capacity =
      (A.blocks.get idx).base + (A.blocks.get idx).capacity := wadd_eq (by omega)
  rw [heq, hptr, hend]
  exact {
    laid := hlaid
    current_le := by dsimp only; split <;> omega
    high_lt := by dsimp only; split <;> omega
    largest_lt := hbest
    base_eq := rfl
    end_eq := rfl
    base_le := Nat.le_add_right _ _
    ptr_le := by dsimp only; omega
    tail := htail
    growth_min := hmin
    growth_max := hmax
    reserved := hreserved
    allocated_lt := hbytes }

end FastArena.ArenaInvariant
