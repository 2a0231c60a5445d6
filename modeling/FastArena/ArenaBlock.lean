import FastArena.MachineWord
import FastArena.ByteSpan

/-!
# Blocks

A block is one system allocation, filled from its base upward. The system
allocator is a parameter: a function from the size and alignment of a layout to
an address, or nothing when memory is out. What it promises about an address it
returns is stated as `Placed` and, against the other blocks, by the invariant
of the arena.
-/

set_option autoImplicit false

namespace FastArena.ArenaBlock
open FastArena.MachineWord FastArena.ByteSpan

structure Ty where
  size : ℕ
  align : ℕ
  needsDrop : Bool
  align_pow : PowerOfTwo align
  align_dvd : align ∣ size
  size_lt : size < 2^63

abbrev SystemAlloc := ℕ → ℕ → Option ℕ

def minBlockAlign : ℕ := 64

structure Block where
  offset : ℕ
  capacity : ℕ
  base : ℕ
  align : ℕ
  deriving DecidableEq, Repr, Inhabited

def Block.extent (b : Block) : Span := ⟨b.base,b.capacity⟩

-- `Layout::from_size_align`: the size, rounded up to the alignment, is at most `isize::MAX`.
def layoutFits (size align : ℕ) : Bool := decide (PowerOfTwo align ∧ size ≤ 2^63 - align)

def alignUp (addr align : ℕ) : ℕ := wsub (wadd addr align) 1 &&& wnot (wsub align 1)

def Block.tryNew (sys : SystemAlloc) (capacity align : ℕ) : Option Block :=
  if capacity = 0 then none
  else
    let align := max align minBlockAlign
    if layoutFits capacity align then
      (sys capacity align).map (fun base => ⟨0,capacity,base,align⟩)
    else none

def Block.tryAlloc (b : Block) (size align : ℕ) : Option (ℕ × ℕ × Block) :=
  let aligned := alignUp (wadd b.base b.offset) align
  match checkedAdd (wsub aligned b.base) size with
  | none => none
  | some newOffset =>
    if newOffset > b.capacity then none
    else some (wadd b.base (wsub aligned b.base),wsub newOffset b.offset,{ b with offset := newOffset })

/-- Addresses below which blocks lie: a pointer into a block plus the size of any object
(at most `isize::MAX`) stays a word, so no block touches the top of the address space. -/
def addressTop : ℕ := 2^63

/-- What holds of a block from the moment the system allocator granted it. -/
structure Placed (b : Block) : Prop where
  nonnull : 0 < b.base
  capacity_pos : 0 < b.capacity
  align_pow : PowerOfTwo b.align
  align_min : minBlockAlign ≤ b.align
  aligned : b.align ∣ b.base
  below_top : b.base + b.capacity ≤ addressTop
  offset_le : b.offset ≤ b.capacity

theorem minBlockAlign_pow : PowerOfTwo minBlockAlign := ⟨6,by norm_num,rfl⟩

theorem alignUp_eq {addr align : ℕ} (hpow : PowerOfTwo align) (h : addr + align ≤ 2^64) :
    alignUp addr align = (addr + align - 1) / align * align := by
  have hpos := powerOfTwo_pos hpow
  have hle := powerOfTwo_le hpow
  have hsum : wsub (wadd addr align) 1 = addr + align - 1 := by
    unfold wsub wadd
    omega
  have hlow : wsub align 1 = align - 1 := wsub_eq hpos (by omega)
  rw [alignUp, hsum, hlow]
  obtain ⟨k,hk,rfl⟩ := hpow
  exact land_mask _ k (by omega) hk

/-- The mask computes the least multiple of the alignment not below the address. -/
theorem alignUp_spec (addr : ℕ) {align : ℕ} (hpow : PowerOfTwo align) (h : addr + align ≤ 2^64) :
    addr ≤ alignUp addr align ∧ alignUp addr align < addr + align ∧ align ∣ alignUp addr align := by
  have hpos := powerOfTwo_pos hpow
  rw [alignUp_eq hpow h]
  have hdiv := Nat.div_add_mod (addr + align - 1) align
  have hmod := Nat.mod_lt (addr + align - 1) hpos
  rw [Nat.mul_comm] at hdiv
  exact ⟨by omega,by omega,dvd_mul_left _ _⟩

theorem alignUp_least {addr align x : ℕ} (hpow : PowerOfTwo align) (h : addr + align ≤ 2^64)
    (hx : addr ≤ x) (hdvd : align ∣ x) : alignUp addr align ≤ x := by
  obtain ⟨-,hlt,hup⟩ := alignUp_spec addr hpow h
  by_contra hgt
  -- two multiples of the alignment less than one alignment apart are equal
  have hsub := Nat.le_of_dvd (by omega) (Nat.dvd_sub hup hdvd)
  omega

theorem alignUp_of_dvd {addr align : ℕ} (hpow : PowerOfTwo align) (h : addr + align ≤ 2^64)
    (hdvd : align ∣ addr) : alignUp addr align = addr :=
  le_antisymm (alignUp_least hpow h (le_refl _) hdvd) (alignUp_spec addr hpow h).1

theorem alignUp_one {addr : ℕ} (h : addr < 2^64) : alignUp addr 1 = addr :=
  alignUp_of_dvd powerOfTwo_one (by omega) (one_dvd _)

theorem placed_align_dvd {b : Block} (h : Placed b) {align : ℕ} (hpow : PowerOfTwo align)
    (hle : align ≤ b.align) : align ∣ b.base :=
  (powerOfTwo_dvd hpow h.align_pow hle).trans h.aligned

theorem aligned_le {addr align : ℕ} (hpow : PowerOfTwo align) (h : addr < 2^64)
    (hdvd : align ∣ addr) : addr + align ≤ 2^64 := by
  obtain ⟨k,hk,rfl⟩ := hpow
  have hgap : 2^k ∣ 2^64 - addr := Nat.dvd_sub (pow_dvd_pow 2 (by omega)) hdvd
  have hle := Nat.le_of_dvd (by omega) hgap
  omega

/-- An empty block at an aligned address, wherever that is, serves a request from its base, with no
padding, exactly when it is large enough. -/
theorem tryAlloc_base {b : Block} (hbase : b.base < 2^64) (hempty : b.offset = 0) {size align : ℕ}
    (hpow : PowerOfTwo align) (hdvd : align ∣ b.base) (hsize : size < 2^64) :
    b.tryAlloc size align =
      if size ≤ b.capacity then some (b.base,size,{ b with offset := size }) else none := by
  have hcur : alignUp (wadd b.base 0) align = b.base := by
    rw [wadd_eq hbase, Nat.add_zero]
    exact alignUp_of_dvd hpow (aligned_le hpow hbase hdvd) hdvd
  have hadd : checkedAdd 0 size = some size := by
    rw [checkedAdd, if_pos (by omega), Nat.zero_add]
  unfold Block.tryAlloc
  simp only [hempty, hcur, wsub_self hbase, hadd]
  by_cases hfit : size ≤ b.capacity
  · rw [if_neg (by omega), if_pos hfit, wadd_eq hbase, wsub_eq (Nat.zero_le _) hsize,
      Nat.add_zero, Nat.sub_zero]
  · rw [if_pos (by omega), if_neg hfit]

theorem tryAlloc_empty {b : Block} (hb : Placed b) (hempty : b.offset = 0) {size align : ℕ}
    (hpow : PowerOfTwo align) (hle : align ≤ b.align) (hsize : size < 2^64) :
    b.tryAlloc size align =
      if size ≤ b.capacity then some (b.base,size,{ b with offset := size }) else none := by
  have htop : b.base + b.capacity ≤ 2^63 := hb.below_top
  exact tryAlloc_base (by omega) hempty hpow (placed_align_dvd hb hpow hle) hsize

theorem tryNew_some {sys : SystemAlloc} {capacity align : ℕ} {b : Block}
    (h : Block.tryNew sys capacity align = some b) :
    0 < capacity ∧ capacity ≤ 2^63 - max align minBlockAlign ∧
      PowerOfTwo (max align minBlockAlign) ∧
      ∃ base, sys capacity (max align minBlockAlign) = some base ∧
        b = ⟨0,capacity,base,max align minBlockAlign⟩ := by
  unfold Block.tryNew at h
  split at h
  · cases h
  · next hcap =>
    dsimp only at h
    split at h
    · next hfits =>
      obtain ⟨base,hbase,rfl⟩ := Option.map_eq_some_iff.mp h
      obtain ⟨hpow,hle⟩ := of_decide_eq_true hfits
      exact ⟨by omega,hle,hpow,base,hbase,rfl⟩
    · cases h

end FastArena.ArenaBlock
