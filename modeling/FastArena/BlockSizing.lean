import FastArena.VecGrowth
import FastArena.ListBuffer

/-!
# Sizes of new blocks

A new block is large enough for the request that asks for it, wherever the system
allocator puts it, and half as large again as the block before, until the largest
regular size is reached. Requests that fail go on with the growth all the same.
Nothing here rests on the arena's invariant: the sizes come out right in any state.
-/

set_option autoImplicit false

namespace FastArena.BlockSizing
open FastArena.MachineWord FastArena.ArenaBlock FastArena.InlineStorage FastArena.DropTracking
  FastArena.ArenaCore FastArena.ArenaInvariant FastArena.RawRequest FastArena.ArenaSweep
  FastArena.ArenaRequests FastArena.ArenaTransaction FastArena.LabelledRun FastArena.ArenaWorld
  FastArena.ArenaSteps FastArena.GrowableVec FastArena.VecGrowth

def grownSize (capacity : ℕ) : ℕ := min (capacity + capacity/2) maxBlockSize

structure Bounds (A : Arena) (size align blockSize : ℕ) (A' : Arena) : Prop where
  worst_le : size + align - 1 ≤ blockSize
  align_le : align*2 < 2^64 → 2*align ≤ blockSize
  next_le : A.nextBlockSize ≤ blockSize
  le_max : blockSize ≤ max (max maxBlockSize (size + align - 1)) (2*align)
  after : A' = { A with nextBlockSize := grownSize blockSize }
  growth_le : A.nextBlockSize ≤ A'.nextBlockSize
  growth_max : A'.nextBlockSize ≤ maxBlockSize

def Aligned (sys : SystemAlloc) : Prop :=
  ∀ capacity align base, sys capacity align = some base → base < 2^64 ∧ align ∣ base

def misfitPanic : String := "fresh block must satisfy request"

/-- The law of block sizes in a state. -/
structure Lawful (A : Arena) : Prop where
  next_le : A.nextBlockSize ≤ maxBlockSize
  bounds : ∀ size align blockSize A', PowerOfTwo align →
    A.nextBlockFor size align = some (blockSize,A') → Bounds A size align blockSize A'
  graded : ∀ i, i+1 < A.blocks.len →
    grownSize (A.blocks.get i).capacity ≤ (A.blocks.get (i+1)).capacity
  serves : ∀ sys, Aligned sys → ∀ size align blockSize A' b, PowerOfTwo align →
    A.nextBlockFor size align = some (blockSize,A') → Block.tryNew sys blockSize align = some b →
      b.capacity = blockSize ∧
        b.tryAlloc size align = some (b.base,size,{ b with offset := size })
  answers : ∀ sys, Aligned sys → ∀ fallible size align, PowerOfTwo align →
    (A.rawInner fallible sys size align).1 ≠ .panic misfitPanic ∧
      (ListBuffer.rawInner fallible sys A size align).1 ≠ .panic misfitPanic

structure Forward (A A' : Arena) : Prop where
  next_le : A.nextBlockSize ≤ A'.nextBlockSize
  grown : Grown A.blocks A'.blocks

section sizes
variable {A A' : Arena} {sys : SystemAlloc} {size align blockSize : ℕ}

theorem grownSize_saturating (n : ℕ) : min (saturatingAdd n (n/2)) maxBlockSize = grownSize n := by
  unfold saturatingAdd grownSize maxBlockSize
  omega

theorem grownSize_le (n : ℕ) : grownSize n ≤ maxBlockSize := min_le_right _ _

theorem le_grownSize {n m : ℕ} (h : n ≤ m) (hmax : n ≤ maxBlockSize) : n ≤ grownSize m := by
  unfold grownSize
  omega

theorem roundedUp_ge (n : ℕ) : min n (2^64-1) ≤ (checkedNextPowerOfTwo n).getD (2^64-1) := by
  cases hp : checkedNextPowerOfTwo n with
  | none => exact min_le_right _ _
  | some p => exact (min_le_left _ _).trans (checkedNextPowerOfTwo_some hp).2

theorem nextBlockFor_bounds (hnext : A.nextBlockSize ≤ maxBlockSize) (hpow : PowerOfTwo align)
    (hn : A.nextBlockFor size align = some (blockSize,A')) : Bounds A size align blockSize A' := by
  have hpos := powerOfTwo_pos hpow
  have htop := powerOfTwo_le hpow
  obtain ⟨worst,hworst,heq⟩ := Option.map_eq_some_iff.mp hn
  obtain ⟨hrounded,rfl⟩ := Prod.mk.inj heq
  rw [hrounded, grownSize_saturating]
  obtain ⟨rfl,-⟩ := checkedAdd_some hworst
  rw [wsub_eq hpos (by omega)] at hrounded
  have hwanted := roundedUp_ge (max (max A.nextBlockSize (size + (align-1))) (wmul align 2))
  generalize (checkedNextPowerOfTwo _).getD _ = q at hrounded hwanted
  have hword : A.nextBlockSize ≤ 2^64-1 := hnext.trans (by norm_num [maxBlockSize])
  have hq : A.nextBlockSize ≤ q :=
    (le_min ((le_max_left _ _).trans (le_max_left _ _)) hword).trans hwanted
  have hworst_le : size + align - 1 ≤ size + (align-1) := by omega
  have hworst_ge : size + (align-1) ≤ size + align - 1 := by omega
  -- the product wraps to zero for the highest alignment and is exact for the others
  have hdouble : wmul align 2 ≤ 2*align := by
    rw [Nat.mul_comm 2]
    exact Nat.mod_le _ _
  have hexact : align*2 < 2^64 → 2*align = wmul align 2 := fun hlt => by
    rw [wmul_eq hlt, Nat.mul_comm]
  have hnext' : A.nextBlockSize ≤ blockSize := by
    rw [← hrounded]
    exact (le_min hq hnext).trans ((le_max_left _ _).trans (le_max_left _ _))
  exact {
    worst_le := by
      rw [← hrounded]
      exact hworst_le.trans ((le_max_right _ _).trans (le_max_left _ _))
    align_le := fun hlt => by
      rw [← hrounded, hexact hlt]
      exact le_max_right _ _
    next_le := hnext'
    le_max := by
      rw [← hrounded]
      exact max_le_max (max_le_max (min_le_right _ _) hworst_ge) hdouble
    after := rfl
    growth_le := le_grownSize hnext' hnext
    growth_max := grownSize_le _ }

theorem fresh_serves (hsys : Aligned sys) (hpow : PowerOfTwo align) (hsize : size < 2^64)
    (hfit : size ≤ blockSize) {b : Block} (hnew : Block.tryNew sys blockSize align = some b) :
    b.capacity = blockSize ∧
      b.tryAlloc size align = some (b.base,size,{ b with offset := size }) := by
  obtain ⟨-,-,hmaxPow,base,hbase,rfl⟩ := tryNew_some hnew
  obtain ⟨hword,hdvd⟩ := hsys blockSize (max align minBlockAlign) base hbase
  have hdvd' : align ∣ base := (powerOfTwo_dvd hpow hmaxPow (le_max_left _ _)).trans hdvd
  exact ⟨rfl,(tryAlloc_base hword rfl hpow hdvd' hsize).trans (if_pos hfit)⟩

theorem nextBlockFor_fit (hn : A.nextBlockFor size align = some (blockSize,A')) :
    size ≤ blockSize ∧ size < 2^64 := by
  obtain ⟨worst,hworst,heq⟩ := Option.map_eq_some_iff.mp hn
  obtain ⟨hrounded,-⟩ := Prod.mk.inj heq
  obtain ⟨rfl,hlt⟩ := checkedAdd_some hworst
  rw [← hrounded]
  exact ⟨(Nat.le_add_right _ _).trans ((le_max_right _ _).trans (le_max_left _ _)),
    lt_of_le_of_lt (Nat.le_add_right _ _) hlt⟩

end sizes

section answers
variable {A : Arena} {sys : SystemAlloc} {size align : ℕ}

theorem newBlockWith_answers (hsys : Aligned sys) (hpow : PowerOfTwo align) {oom : Ret}
    (hoom : oom ≠ .panic misfitPanic) (misfit : Ret) :
    (A.newBlockWith oom misfit sys size align).1 ≠ .panic misfitPanic := by
  unfold Arena.newBlockWith
  cases hn : A.nextBlockFor size align with
  | none =>
    dsimp only
    decide
  | some next =>
    obtain ⟨hfit,hsize⟩ := nextBlockFor_fit (show A.nextBlockFor size align = some _ from hn)
    dsimp only
    cases hnew : Block.tryNew sys next.1 align with
    | none => exact hoom
    | some b =>
      dsimp only
      rw [(fresh_serves hsys hpow hsize hfit hnew).2]
      exact Ret.noConfusion

/-- Where the block list may be refused a buffer the new-block step is the same, or ends in the
list's panic after the growth. -/
theorem newBlock_cases (oom misfit : Ret) :
    ListBuffer.newBlock oom misfit sys A size align = A.newBlockWith oom misfit sys size align ∨
      ∃ message blockSize B reserved allocated, ListBuffer.pushPanic sys A.blocks = some message ∧
        A.nextBlockFor size align = some (blockSize,B) ∧
          ListBuffer.newBlock oom misfit sys A size align = (.panic message,
            { B with bytesReserved := reserved, bytesAllocated := allocated }) := by
  cases hpush : ListBuffer.pushPanic sys A.blocks with
  | none => exact Or.inl (ListBuffer.newBlock_eq hpush oom misfit)
  | some message =>
    unfold ListBuffer.newBlock Arena.newBlockWith
    cases hn : A.nextBlockFor size align with
    | none => exact Or.inl rfl
    | some next =>
      obtain ⟨blockSize,B⟩ := next
      have hpushB : ListBuffer.pushPanic sys B.blocks = some message := by
        obtain ⟨worst,-,heq⟩ := Option.map_eq_some_iff.mp hn
        rw [← (Prod.mk.inj heq).2]
        exact hpush
      dsimp only
      cases Block.tryNew sys blockSize align with
      | none => exact Or.inl rfl
      | some b =>
        dsimp only
        cases b.tryAlloc size align with
        | none => exact Or.inl rfl
        | some found =>
          dsimp only
          rw [hpushB]
          exact Or.inr ⟨message,blockSize,B,_,_,rfl,rfl,rfl⟩

theorem pushPanic_ne {blocks : Blocks} {message : String}
    (h : ListBuffer.pushPanic sys blocks = some message) : message ≠ misfitPanic := by
  rcases HeapBuffer.pushPanic_words h with rfl | rfl | rfl <;> decide

theorem newBlock_answers (hsys : Aligned sys) (hpow : PowerOfTwo align) {oom : Ret}
    (hoom : oom ≠ .panic misfitPanic) (misfit : Ret) :
    (ListBuffer.newBlock oom misfit sys A size align).1 ≠ .panic misfitPanic := by
  rcases @newBlock_cases A sys size align oom misfit with
    heq | ⟨message,blockSize,B,reserved,allocated,hpush,-,heq⟩
  · rw [heq]
    exact newBlockWith_answers hsys hpow hoom misfit
  · rw [heq]
    exact fun hmisfit => pushPanic_ne hpush (Ret.panic.inj hmisfit)

theorem slowWith_answers {newBlock : Arena → ℕ → ℕ → Ret × Arena}
    (hnew : ∀ B, (newBlock B size align).1 ≠ .panic misfitPanic) :
    (A.slowWith newBlock size align).1 ≠ .panic misfitPanic := by
  unfold Arena.slowWith
  dsimp only
  cases A.finishSlowPath.retained size align with
  | some found => exact Ret.noConfusion
  | none => exact hnew _

theorem rawInnerWith_answers {slow overflow : Arena → ℕ → ℕ → Ret × Arena}
    (hslow : (slow A size align).1 ≠ .panic misfitPanic)
    (hoverflow : (overflow A size align).1 ≠ .panic misfitPanic) :
    (A.rawInnerWith slow overflow size align).1 ≠ .panic misfitPanic := by
  rcases rawInnerWith_ends slow overflow A size align with ⟨p,q,heq⟩ | heq | heq
  · rw [heq]
    exact Ret.noConfusion
  · rw [heq]
    exact hslow
  · rw [heq]
    exact hoverflow

theorem oom_answers : Ret.panic "arena: out of memory" ≠ .panic misfitPanic := by decide

/-- A raw request never finds that the block made for it does not fit, whether or not the block list
may be refused a buffer. -/
theorem rawInner_answers (hsys : Aligned sys) (hpow : PowerOfTwo align) (fallible : Bool) :
    (A.rawInner fallible sys size align).1 ≠ .panic misfitPanic ∧
      (ListBuffer.rawInner fallible sys A size align).1 ≠ .panic misfitPanic := by
  have hslow : ∀ {oom : Ret} (misfit : Ret), oom ≠ .panic misfitPanic →
      (A.slowWith (Arena.newBlockWith oom misfit sys) size align).1 ≠ .panic misfitPanic ∧
        (A.slowWith (ListBuffer.newBlock oom misfit sys) size align).1 ≠ .panic misfitPanic :=
    fun misfit hoom => ⟨slowWith_answers (fun _ => newBlockWith_answers hsys hpow hoom misfit),
      slowWith_answers (fun _ => newBlock_answers hsys hpow hoom misfit)⟩
  cases fallible with
  | false =>
    obtain ⟨hplain,hlist⟩ := hslow (.panic misfitPanic) oom_answers
    exact ⟨rawInnerWith_answers hplain hplain,rawInnerWith_answers hlist hlist⟩
  | true =>
    have hnone : Ret.none ≠ .panic misfitPanic := Ret.noConfusion
    obtain ⟨hplain,hlist⟩ := hslow .none hnone
    exact ⟨@rawInnerWith_answers A size align (Arena.allocSlowTry sys) (fun A _ _ => (.none,A))
        hplain hnone,
      @rawInnerWith_answers A size align (ListBuffer.allocSlowTry sys) (fun A _ _ => (.none,A))
        hlist hnone⟩

end answers

structure Sized (A : Arena) : Prop where
  blocks_pos : 0 < A.blocks.len
  next_le : A.nextBlockSize ≤ maxBlockSize
  ready : grownSize (A.blocks.get (A.blocks.len-1)).capacity ≤ A.nextBlockSize
  graded : ∀ i, i+1 < A.blocks.len →
    grownSize (A.blocks.get i).capacity ≤ (A.blocks.get (i+1)).capacity

def Resized (A A' : Arena) : Prop := Sized A → Sized A' ∧ Forward A A'

section steps
variable {A A' : Arena} {sys : SystemAlloc} {size align : ℕ}

theorem forward_refl (A : Arena) : Forward A A := ⟨le_refl _,grown_refl _⟩

theorem resized_refl (A : Arena) : Resized A A := fun h => ⟨h,forward_refl A⟩

theorem resized_trans {A'' : Arena} (h : Resized A A') (h' : Resized A' A'') : Resized A A'' := by
  intro hsized
  obtain ⟨hmid,hforward⟩ := h hsized
  obtain ⟨hlast,hforward'⟩ := h' hmid
  exact ⟨hlast,hforward.next_le.trans hforward'.next_le,grown_trans hforward.grown hforward'.grown⟩

theorem resized_kept (hlen : A'.blocks.len = A.blocks.len) (hgrown : Grown A.blocks A'.blocks)
    (hnext : A'.nextBlockSize = A.nextBlockSize) : Resized A A' := by
  intro h
  have hcap : ∀ i < A.blocks.len, (A'.blocks.get i).capacity = (A.blocks.get i).capacity :=
    fun i hi => (extent_inj (hgrown.extent_eq i hi)).2
  have hpos := h.blocks_pos
  refine ⟨⟨by rw [hlen]; exact hpos,by rw [hnext]; exact h.next_le,?_,?_⟩,le_of_eq hnext.symm,
    hgrown⟩
  · rw [hnext, hlen, hcap _ (by omega)]
    exact h.ready
  · intro i hi
    rw [hlen] at hi
    rw [hcap i (by omega), hcap (i+1) hi]
    exact h.graded i hi

theorem resized_blocks (hblocks : A'.blocks = A.blocks)
    (hnext : A'.nextBlockSize = A.nextBlockSize) : Resized A A' :=
  resized_kept (congrArg InlineVec.len hblocks) (hblocks ▸ grown_refl _) hnext

theorem resized_growth {n : ℕ} (hblocks : A'.blocks = A.blocks) (hnext : A'.nextBlockSize = n)
    (hle : A.nextBlockSize ≤ n) (hmax : n ≤ maxBlockSize) : Resized A A' := by
  intro h
  obtain rfl := hnext
  refine ⟨⟨?_,hmax,?_,?_⟩,hle,hblocks ▸ grown_refl _⟩
  · rw [hblocks]
    exact h.blocks_pos
  · rw [hblocks]
    exact h.ready.trans hle
  · rw [hblocks]
    exact h.graded

theorem resized_push {b : Block} (hblocks : A'.blocks = A.blocks.push b)
    (hcap : A.nextBlockSize ≤ b.capacity) (hnext : A'.nextBlockSize = grownSize b.capacity) :
    Resized A A' := by
  intro h
  have hlen : A'.blocks.len = A.blocks.len+1 := by rw [hblocks, InlineVec.len_push]
  have hlast : A'.blocks.get A.blocks.len = b := by rw [hblocks, InlineVec.get_push, if_pos rfl]
  have hold : ∀ i < A.blocks.len, A'.blocks.get i = A.blocks.get i := by
    intro i hi
    rw [hblocks, InlineVec.get_push, if_neg (Nat.ne_of_lt hi)]
  refine ⟨⟨by omega,hnext ▸ grownSize_le _,?_,?_⟩,?_,⟨by omega,?_⟩⟩
  · rw [hlen, Nat.add_sub_cancel, hlast, hnext]
  · intro i hi
    rw [hlen] at hi
    rw [hold i (by omega)]
    by_cases hi' : i+1 = A.blocks.len
    · have hready := h.ready
      rw [← hi', Nat.add_sub_cancel] at hready
      rw [hi', hlast]
      exact hready.trans hcap
    · rw [hold (i+1) (by omega)]
      exact h.graded i (by omega)
  · rw [hnext]
    exact le_grownSize hcap h.next_le
  · exact fun i hi => congrArg Block.extent (hold i hi)

theorem resized_finishSlowPath (A : Arena) : Resized A A.finishSlowPath :=
  resized_kept (finishSlowPath_len A) (grown_modify A.blocks A.current rfl) rfl

theorem resized_setCurrentBlock (A : Arena) (idx : ℕ) : Resized A (A.setCurrentBlock idx) :=
  resized_blocks (setCurrentBlock_blocks A idx) (setCurrentBlock_nextBlockSize A idx)

theorem tryAlloc_extent {b b' : Block} {p delta : ℕ}
    (h : b.tryAlloc size align = some (p,delta,b')) : b'.extent = b.extent := by
  unfold Block.tryAlloc at h
  dsimp only at h
  split at h
  · cases h
  · split at h
    · cases h
    · obtain ⟨-,hrest⟩ := Prod.mk.inj (Option.some.inj h)
      obtain ⟨-,rfl⟩ := Prod.mk.inj hrest
      rfl

theorem resized_newBlockWith (hpow : PowerOfTwo align) (oom misfit : Ret) :
    Resized A (A.newBlockWith oom misfit sys size align).2 := by
  intro h
  unfold Arena.newBlockWith
  cases hn : A.nextBlockFor size align with
  | none => exact resized_refl A h
  | some next =>
    obtain ⟨blockSize,B⟩ := next
    have hbounds := nextBlockFor_bounds h.next_le hpow hn
    have hblocks : B.blocks = A.blocks := by rw [hbounds.after]
    have hgrowth : Resized A B :=
      resized_growth hblocks rfl hbounds.growth_le hbounds.growth_max
    dsimp only
    cases hnew : Block.tryNew sys blockSize align with
    | none => exact hgrowth h
    | some b =>
      dsimp only
      cases hfit : b.tryAlloc size align with
      | none => exact hgrowth h
      | some found =>
        obtain ⟨p,delta,b'⟩ := found
        obtain ⟨-,-,-,base,-,rfl⟩ := tryNew_some hnew
        have hcap : b'.capacity = blockSize := (extent_inj (tryAlloc_extent hfit)).2
        refine resized_trans (resized_push (congrArg (InlineVec.push · b') hblocks) ?_ ?_)
          (resized_setCurrentBlock _ _) h
        · rw [hcap]
          exact hbounds.next_le
        · rw [hcap, hbounds.after]

theorem resized_newBlock (hpow : PowerOfTwo align) (oom misfit : Ret) :
    Resized A (ListBuffer.newBlock oom misfit sys A size align).2 := by
  rcases @newBlock_cases A sys size align oom misfit with
    heq | ⟨message,blockSize,B,reserved,allocated,-,hn,heq⟩
  · rw [heq]
    exact resized_newBlockWith hpow oom misfit
  · intro h
    have hbounds := nextBlockFor_bounds h.next_le hpow hn
    rw [heq]
    refine resized_growth ?_ rfl hbounds.growth_le hbounds.growth_max h
    dsimp only
    rw [hbounds.after]

theorem resized_slowWith {newBlock : Arena → ℕ → ℕ → Ret × Arena}
    (hnew : ∀ B, Resized B (newBlock B size align).2) :
    Resized A (A.slowWith newBlock size align).2 := by
  unfold Arena.slowWith
  dsimp only
  cases hfound : A.finishSlowPath.retained size align with
  | none => exact resized_trans (resized_finishSlowPath A) (hnew _)
  | some found =>
    obtain ⟨i,p,delta,b⟩ := found
    have hfit : firstFit A.finishSlowPath.blocks size align
        (A.finishSlowPath.blocks.len - (A.finishSlowPath.current+1))
        (A.finishSlowPath.current+1) = some (i,p,delta,b) := by
      unfold Arena.retained at hfound
      split at hfound
      · cases hfound
      · split at hfound
        · exact hfound
        · cases hfound
    obtain ⟨-,-,-,halloc⟩ := firstFit_some hfit
    refine resized_trans (resized_finishSlowPath A) (resized_trans ?_ (resized_setCurrentBlock _ i))
    exact resized_kept (InlineVec.len_modify _ _ _)
      (grown_modify _ i (tryAlloc_extent halloc)) rfl

theorem resized_rawInnerWith {slow overflow : Arena → ℕ → ℕ → Ret × Arena}
    (hslow : Resized A (slow A size align).2) (hoverflow : Resized A (overflow A size align).2) :
    Resized A (A.rawInnerWith slow overflow size align).2 := by
  rcases rawInnerWith_ends slow overflow A size align with ⟨p,q,heq⟩ | heq | heq
  · rw [heq]
    exact resized_blocks rfl rfl
  · rw [heq]
    exact hslow
  · rw [heq]
    exact hoverflow

theorem resized_rawInner (hpow : PowerOfTwo align) (fallible : Bool) :
    Resized A (A.rawInner fallible sys size align).2 ∧
      Resized A (ListBuffer.rawInner fallible sys A size align).2 := by
  have hslow : ∀ oom misfit,
      Resized A (A.slowWith (Arena.newBlockWith oom misfit sys) size align).2 ∧
      Resized A (A.slowWith (ListBuffer.newBlock oom misfit sys) size align).2 :=
    fun oom misfit => ⟨resized_slowWith (fun _ => resized_newBlockWith hpow oom misfit),
      resized_slowWith (fun _ => resized_newBlock hpow oom misfit)⟩
  cases fallible with
  | false =>
    obtain ⟨hplain,hlist⟩ := hslow (.panic "arena: out of memory") (.panic misfitPanic)
    exact ⟨resized_rawInnerWith hplain hplain,resized_rawInnerWith hlist hlist⟩
  | true =>
    obtain ⟨hplain,hlist⟩ := hslow .none .none
    exact ⟨@resized_rawInnerWith A size align (Arena.allocSlowTry sys) (fun A _ _ => (.none,A))
        hplain (resized_refl A),
      @resized_rawInnerWith A size align (ListBuffer.allocSlowTry sys) (fun A _ _ => (.none,A))
        hlist (resized_refl A)⟩

/-- What a call of an allocating method can leave: the arena with its bump pointer moved, or what a
raw request left. -/
inductive Left (sys : SystemAlloc) (A : Arena) : Arena → Prop where
  | bumped (q : ℕ) (registry : DropRegistry) :
      Left sys A { A with curPtr := q, dropRegistry := registry }
  | raw (fallible : Bool) {size align : ℕ} (hpow : PowerOfTwo align) (registry : DropRegistry) :
      Left sys A { (A.rawInner fallible sys size align).2 with dropRegistry := registry }

theorem left_self (sys : SystemAlloc) (A : Arena) : Left sys A A :=
  .bumped A.curPtr A.dropRegistry

theorem left_onRaw (fallible : Bool) (hpow : PowerOfTwo align) (lost : ℕ) (k : Kind) :
    Left sys A (onRaw (A.rawInner fallible sys size align) size align lost k.filled).arena := by
  obtain ⟨registry,heq⟩ :=
    ListBuffer.onRaw_arena (A.rawInner fallible sys size align) size align lost k
  rw [heq]
  exact .raw fallible hpow registry

theorem left_value (ty : Ty) (fallible : Bool) :
    Left sys A (allocWith fallible sys A ty).arena := by
  unfold allocWith
  split
  · exact left_self sys A
  · exact left_onRaw fallible ty.align_pow _ (.value ty)

theorem left_slice (k : Kind) (fallible : Bool) (overflow : Ret) (ty : Ty) (len : ℕ) :
    Left sys A (allocSliceWith fallible overflow sys A ty len k.filled).arena := by
  rcases allocSliceWith_cases fallible overflow sys A ty len k.filled with
    ⟨-,ret,drops,heq⟩ | ⟨size,align,hd,heq⟩
  · rw [heq]
    exact left_self sys A
  · obtain ⟨-,-,rfl,-⟩ := sliceDemand_some hd
    rw [heq]
    exact left_onRaw fallible ty.align_pow _ k

theorem left_raw (k : Kind) (fallible : Bool) (size align : ℕ) :
    Left sys A (allocRawWith fallible sys A size align k.filled).arena := by
  rcases allocRawWith_cases fallible sys A size align k.filled with ⟨-,ret,drops,heq⟩ | ⟨hyes,heq⟩
  · rw [heq]
    exact left_self sys A
  · rw [heq]
    exact left_onRaw fallible hyes.1 _ k

theorem left_str (len : ℕ) (fallible : Bool) :
    Left sys A (Request.serve sys A ⟨.str len,fallible⟩).arena := by
  cases fallible with
  | false =>
    change Left sys A (allocStr sys A len).arena
    unfold allocStr
    split
    · exact left_self sys A
    · dsimp only
      split
      · exact .bumped _ A.dropRegistry
      · exact left_onRaw false powerOfTwo_one 0 (.str len)
  | true =>
    change Left sys A (tryAllocStr sys A len).arena
    unfold tryAllocStr
    split
    · exact left_self sys A
    · split
      · exact left_self sys A
      · split
        · exact .bumped _ A.dropRegistry
        · exact left_onRaw true powerOfTwo_one 0 (.str len)

/-- In any state, the broken ones included. -/
theorem left_serve (r : Request) : Left sys A (r.serve sys A).arena := by
  obtain ⟨kind,fallible⟩ := r
  cases kind with
  | value ty => cases fallible <;> exact left_value ty _
  | slice ty len yields => cases fallible <;> exact left_slice (.slice ty len yields) _ _ ty len
  | sliceCopy ty len => cases fallible <;> exact left_slice (.sliceCopy ty len) _ _ ty len
  | str len => exact left_str len fallible
  | uninit ty =>
    change Left sys A (allocUninit sys A ty).arena
    unfold allocUninit
    split
    · exact left_self sys A
    · exact left_onRaw false ty.align_pow 0 (.uninit ty)
  | raw size align => cases fallible <;> exact left_raw (.raw size align) _ size align
  | zeroed size align =>
    cases fallible with
    | false =>
      change Left sys A (allocZeroed sys A size align).arena
      unfold allocZeroed
      split
      · exact left_self sys A
      · exact left_raw (.zeroed size align) false size align
    | true => exact left_raw (.zeroed size align) true size align
  | cacheAligned size =>
    cases fallible <;> exact left_raw (.cacheAligned size) _ size cacheLineSize

theorem resized_left (h : Left sys A A') : Resized A A' := by
  cases h with
  | bumped q registry => exact resized_blocks rfl rfl
  | raw fallible hpow registry =>
    exact resized_trans (resized_rawInner hpow fallible).1 (resized_blocks rfl rfl)

theorem resized_serve (sys : SystemAlloc) (r : Request) : Resized A (r.serve sys A).arena :=
  resized_left (left_serve r)

theorem resized_guarded (t : Transaction) (sys : SystemAlloc) (r : Request) :
    Resized A (t.serve sys A r).arena := by
  rcases txn_serve t sys A r with ⟨-,heq⟩ | ⟨-,ret,-,lost,heq⟩
  · rw [heq]
    exact resized_serve sys r
  · rw [heq]
    exact resized_refl A

theorem resized_listServe (sys : SystemAlloc) {r : Request} (hr : r.Typed) :
    Resized A (ListBuffer.serve sys A r).arena := by
  unfold ListBuffer.serve
  cases hd : r.kind.demand with
  | none => exact resized_serve sys r
  | some asked =>
    obtain ⟨size,align⟩ := asked
    obtain ⟨hpow,-⟩ := demand_typed hr hd
    obtain ⟨registry,heq⟩ := ListBuffer.onRaw_arena
      (ListBuffer.rawInner r.fallible sys A size align) size align r.kind.lost r.kind
    dsimp only
    rw [heq]
    exact resized_trans (resized_rawInner hpow r.fallible).2 (resized_blocks rfl rfl)

theorem resized_listGuarded (t : Transaction) (sys : SystemAlloc) {r : Request} (hr : r.Typed) :
    Resized A (ListBuffer.guardedServe t sys A r).arena := by
  unfold ListBuffer.guardedServe
  split
  · exact resized_listServe sys hr
  · exact resized_guarded t sys r

theorem grown_clearOffsets (n i : ℕ) (blocks : Blocks) :
    Grown blocks (clearOffsets n i blocks) := by
  refine ⟨le_of_eq (len_clearOffsets n i blocks).symm,fun j hj => ?_⟩
  rw [get_clearOffsets n i blocks hj]
  split <;> rfl

theorem resized_rewind (boom : ℕ → ℕ → Bool) (cp : Checkpoint) :
    Resized A (A.rewind boom cp).arena := by
  unfold Arena.rewind
  split
  · dsimp only
    split
    · exact resized_blocks rfl rfl
    · dsimp only
      refine resized_trans ?_ (resized_setCurrentBlock _ _)
      refine resized_kept ?_ ?_ rfl
      · exact (InlineVec.len_modify _ _ _).trans (len_clearOffsets _ _ _)
      · exact grown_trans (grown_clearOffsets _ _ _) (grown_modify _ cp.blockIdx rfl)
  · exact resized_refl A

theorem resized_reset (boom : ℕ → ℕ → Bool) : Resized A (A.reset boom).arena := by
  unfold Arena.reset
  dsimp only
  split
  · exact resized_blocks rfl rfl
  · exact resized_kept (len_clearOffsets _ _ _) (grown_clearOffsets _ _ _) rfl

theorem resized_drop (boom : ℕ → ℕ → Bool) (t : Transaction) : Resized A (t.drop boom A).arena := by
  have hdepth : ∀ n, Resized A { A with txnDepth := n } := fun n => resized_blocks rfl rfl
  unfold Transaction.drop
  split
  · exact hdepth _
  · exact resized_trans (hdepth _) (resized_rewind boom _)

theorem resized_growWith (fallible : Bool) (ty : Ty) (v : ArenaVec) (n : ℕ) :
    Resized A (growWith fallible sys A ty v n).call.arena := by
  unfold growWith
  split
  · exact resized_refl A
  · split
    · exact resized_blocks rfl rfl
    · split
      · exact resized_refl A
      · next bytes _ =>
        have hraw : Resized A (if fallible then tryAllocRaw sys A bytes ty.align
            else allocRaw sys A bytes ty.align).arena := by
          cases fallible with
          | false => exact resized_serve sys ⟨.raw bytes ty.align,false⟩
          | true => exact resized_serve sys ⟨.raw bytes ty.align,true⟩
        dsimp only
        split <;> exact hraw

theorem resized_apply (ty : Ty) (v : ArenaVec) (op : VecOp) :
    Resized A (op.apply sys A ty v).call.arena := by
  rcases @byGrowth_apply sys A ty v op with hstill | ⟨fallible,n,hgrown⟩
  · rw [hstill]
    exact resized_refl A
  · rw [hgrown]
    exact resized_growWith fallible ty v n

theorem resized_vecCapacity (ty : Ty) (cap : ℕ) :
    Resized A (GrowableVec.withCapacity sys A ty cap).call.arena := by
  unfold GrowableVec.withCapacity
  split
  · exact resized_growWith false ty _ cap
  · split
    · exact resized_refl A
    · exact resized_refl A

theorem resized_sweeping (w : World) {op : Op} (hop : Sweeping op) :
    Resized w.arena (w.step op).arena := by
  cases op with
  | request sys r => exact hop.elim
  | guarded sys r => exact hop.elim
  | checkpoint => exact resized_refl _
  | rewind boom stamp =>
    cases hfound : w.markAt stamp with
    | none =>
      simp only [World.step, hfound]
      exact resized_refl _
    | some m =>
      simp only [World.step, hfound]
      exact resized_rewind boom m.cp
  | reset boom => exact resized_reset boom
  | begin => exact resized_blocks rfl rfl
  | commit =>
    cases hopened : w.opened with
    | nil =>
      simp only [World.step, hopened]
      exact resized_refl _
    | cons f rest =>
      simp only [World.step, hopened]
      exact resized_blocks rfl rfl
  | rollback boom =>
    cases hopened : w.opened with
    | nil =>
      simp only [World.step, hopened]
      exact resized_refl _
    | cons f rest =>
      simp only [World.step, hopened]
      exact resized_drop boom f.txn
  | setLimit bytes =>
    cases hopened : w.opened <;> simp only [World.step, hopened] <;> exact resized_refl _

theorem resized_step (w : World) (op : Op) : Resized w.arena (w.step op).arena := by
  cases op with
  | request sys r => exact resized_serve sys r
  | guarded sys r =>
    cases hopened : w.opened with
    | nil =>
      simp only [World.step, hopened]
      exact resized_refl _
    | cons f rest =>
      simp only [World.step, hopened]
      exact resized_guarded f.txn sys r
  | _ => exact resized_sweeping w trivial

theorem resized_listStep (w : World) {op : Op} (hop : Honest w op) :
    Resized w.arena (ListBuffer.step w op).arena := by
  cases op with
  | request sys r => exact resized_listServe sys hop.2
  | guarded sys r =>
    unfold ListBuffer.step
    cases hopened : w.opened with
    | nil => exact resized_refl _
    | cons f rest => exact resized_listGuarded f.txn sys hop.2
  | _ => exact resized_sweeping w trivial

theorem resized_session (s : Session) (c : Call) :
    Resized s.world.arena (s.step c).world.arena := by
  obtain ⟨w,opened⟩ := s
  cases opened with
  | none =>
    cases c with
    | arena op => exact resized_step w op
    | withCapacity sys ty cap => exact resized_vecCapacity ty cap
    | _ => exact resized_refl _
  | some held =>
    cases c with
    | vec sys op => exact resized_apply held.1 held.2 op
    | _ => exact resized_refl _

end steps

theorem sized_withCapacity {sys : SystemAlloc} {feature : Bool} {initialBytes : ℕ} {A : Arena}
    (hA : Arena.withCapacity sys feature initialBytes = some A) : Sized A := by
  obtain ⟨block,hnew,rfl⟩ := Option.map_eq_some_iff.mp hA
  obtain ⟨-,-,-,base,-,rfl⟩ := tryNew_some hnew
  have hgrown : grownSize (max initialBytes minBlockSize) ≤
      min (saturatingMul (max initialBytes minBlockSize) 2) maxBlockSize := by
    unfold grownSize saturatingMul maxBlockSize
    omega
  refine ⟨Nat.one_pos,min_le_right _ _,?_,?_⟩
  · exact hgrown
  · intro i hi
    have hlen : i+1 < 1 := hi
    omega

theorem lawful_sized {A : Arena} (h : Sized A) : Lawful A where
  next_le := h.next_le
  bounds := fun _ _ _ _ hpow hn => nextBlockFor_bounds h.next_le hpow hn
  graded := h.graded
  serves := fun _ hsys _ _ _ _ _ hpow hn hnew =>
    fresh_serves hsys hpow (nextBlockFor_fit hn).2 (nextBlockFor_fit hn).1 hnew
  answers := fun _ hsys fallible _ _ hpow => rawInner_answers hsys hpow fallible

theorem sized_session {s : Session} (h : s.Reached (fun _ _ => True)) : Sized s.world.arena := by
  obtain ⟨sys,feature,initialBytes,A,calls,-,hA,halong,rfl⟩ := h
  exact run_invariant Session.step _ (fun s => Sized s.world.arena)
    (fun s c hs _ => (resized_session s c hs).1) _ calls (sized_withCapacity hA) halong

theorem sized_visited {w : World} (h : ListBuffer.Visited w) : Sized w.arena := by
  obtain ⟨sys,feature,initialBytes,A,ops,-,hA,halong,rfl⟩ := h
  exact run_invariant ListBuffer.step Honest (fun w => Sized w.arena)
    (fun w _ hw hop => (resized_listStep w hop hw).1) _ ops (sized_withCapacity hA) halong

/-- The law of block sizes holds in any state of an arena and the vectors on it, whatever they have
been called with, and where the block list may be refused a buffer. -/
theorem block_sizing :
    (∀ s : Session, s.Reached (fun _ _ => True) →
      Lawful s.world.arena ∧ ∀ c, Forward s.world.arena (s.step c).world.arena) ∧
    ∀ w : World, ListBuffer.Visited w →
      Lawful w.arena ∧ ∀ op, Honest w op → Forward w.arena (ListBuffer.step w op).arena := by
  refine ⟨fun s hs => ?_,fun w hw => ?_⟩
  · have hsized := sized_session hs
    exact ⟨lawful_sized hsized,fun c => (resized_session s c hsized).2⟩
  · have hsized := sized_visited hw
    exact ⟨lawful_sized hsized,fun op hop => (resized_listStep w hop hsized).2⟩

def secondBlock : List Call :=
  [.arena (.request noMemory ⟨.raw 40 8,false⟩),
    .arena (.request (oneBlock 128 8192) ⟨.str 100,true⟩)]

theorem block_sizing_second : ∃ A, smallArena false 64 = some A ∧
    ∃ s, s = run Session.step ⟨World.start A,none⟩ secondBlock ∧
      s.world.arena.blocks.len = 2 ∧ (s.world.arena.blocks.get 1).capacity = 128 ∧
        Lawful s.world.arena ∧ ∀ c, Forward s.world.arena (s.step c).world.arena := by
  obtain ⟨A,hA⟩ : ∃ A, smallArena false 64 = some A := ⟨_,rfl⟩
  have hlawful := block_sizing.1 _ (session_small (by norm_num) hA secondBlock
    ⟨trivial,trivial,trivial⟩)
  refine ⟨A,hA,_,rfl,?_,?_,hlawful⟩
  · cases hA
    decide +kernel
  · cases hA
    decide +kernel

end FastArena.BlockSizing
