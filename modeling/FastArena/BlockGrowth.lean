import FastArena.SystemCalls
import FastArena.BlockSizing

/-!
# How blocks grow

The size of the next block is rounded up to a power of two and then raised by a
half, so each block is at least twice the one before it until blocks are as
large as they get. The number of blocks is therefore logarithmic in the memory
reserved, and linear in it with a large divisor from then on.
-/

set_option autoImplicit false

namespace FastArena.BlockGrowth
open FastArena.MachineWord FastArena.ArenaBlock FastArena.InlineStorage FastArena.ArenaCore
  FastArena.ArenaInvariant FastArena.RawRequest FastArena.ArenaSweep FastArena.ArenaRequests
  FastArena.ArenaTransaction FastArena.LabelledRun FastArena.ArenaWorld FastArena.SystemHeap
  FastArena.SystemCalls FastArena.BlockSizing

def floorAt (i : ℕ) : ℕ := min (minBlockSize * 2^i) maxBlockSize

structure Paced (cs : List Chunk) (next : ℕ) : Prop where
  next_le : next ≤ maxBlockSize
  next_ge : min (48 * 2^cs.length) maxBlockSize ≤ next
  floor_le : ∀ i, ∀ c ∈ cs[i]?, floorAt i ≤ c.size

def Paces (A A' : Arena) : Prop :=
  Paced (chunks A.blocks) A.nextBlockSize → Paced (chunks A'.blocks) A'.nextBlockSize

theorem nextPowerOfTwo_double {n m k : ℕ} (h : 2^k < m) (hle : m ≤ n) (hk : k < 63) :
    2^(k+1) ≤ (checkedNextPowerOfTwo n).getD (2^64-1) := by
  cases hp : checkedNextPowerOfTwo n with
  | none =>
    have := Nat.pow_le_pow_right (show 0 < 2 by norm_num) (show k+1 ≤ 63 by omega)
    change _ ≤ 2^64-1
    omega
  | some p =>
    obtain ⟨⟨j,-,rfl⟩,hnp⟩ := checkedNextPowerOfTwo_some hp
    change 2^(k+1) ≤ 2^j
    apply Nat.pow_le_pow_right (by norm_num)
    by_contra hj
    have := Nat.pow_le_pow_right (show 0 < 2 by norm_num) (show j ≤ k by omega)
    omega

theorem grownSize_floor {n size : ℕ} (h : floorAt n ≤ size) :
    min (48 * 2^(n+1)) maxBlockSize ≤ grownSize size := by
  have hmin : minBlockSize = 64 := rfl
  unfold floorAt at h
  unfold grownSize
  rw [hmin] at h
  rw [Nat.pow_succ]
  omega

theorem paced_next {cs : List Chunk} {next next' : ℕ} (h : Paced cs next) (hle : next ≤ next')
    (hmax : next' ≤ maxBlockSize) : Paced cs next' :=
  ⟨hmax,h.next_ge.trans hle,h.floor_le⟩

theorem paced_push {cs : List Chunk} {next : ℕ} (h : Paced cs next) {c : Chunk}
    (hc : floorAt cs.length ≤ c.size) : Paced (cs++[c]) (grownSize c.size) := by
  refine ⟨grownSize_le _,?_,?_⟩
  · rw [List.length_append]
    exact grownSize_floor hc
  · intro i d hd
    rw [List.getElem?_append] at hd
    split at hd
    · exact h.floor_le i d hd
    · next hi =>
      obtain ⟨hi',hd'⟩ := List.getElem?_eq_some_iff.mp hd
      have hlast : i - cs.length = 0 := by simpa using hi'
      have hi'' : i = cs.length := by omega
      subst hi''
      simp only [Nat.sub_self, List.getElem_cons_zero] at hd'
      rw [← hd']
      exact hc

section paces
variable {A A' : Arena} {sys : SystemAlloc} {size align blockSize : ℕ}

theorem nextBlockFor_floor (h : Paced (chunks A.blocks) A.nextBlockSize) (hpow : PowerOfTwo align)
    (hn : A.nextBlockFor size align = some (blockSize,A')) :
    floorAt (chunks A.blocks).length ≤ blockSize := by
  have hbounds := nextBlockFor_bounds h.next_le hpow hn
  have hnext := h.next_ge
  have hmin : minBlockSize = 64 := rfl
  have hmax : maxBlockSize = 2^24 := rfl
  generalize (chunks A.blocks).length = n at hnext ⊢
  unfold floorAt
  by_cases hlen : n ≤ 18
  · -- the size wanted lies past the power of two below the floor
    have hsmall := Nat.pow_le_pow_right (show 0 < 2 by norm_num) hlen
    have hpast : 2^(n+5) < 48 * 2^n := by
      have := Nat.two_pow_pos n
      rw [Nat.pow_add]
      omega
    rw [min_eq_left (by rw [hmax]; omega)] at hnext
    obtain ⟨worst,-,heq⟩ := Option.map_eq_some_iff.mp hn
    have hrounded := (Prod.mk.inj heq).1
    have hwanted : 48 * 2^n ≤ max (max A.nextBlockSize worst) (wmul align 2) :=
      hnext.trans ((le_max_left _ _).trans (le_max_left _ _))
    have hdouble := nextPowerOfTwo_double hpast hwanted (by omega)
    have hfloor : minBlockSize * 2^n = 2^(n+5+1) := by
      rw [hmin]
      ring
    rw [← hrounded, hfloor]
    exact le_trans (min_le_min hdouble (le_refl _)) ((le_max_left _ _).trans (le_max_left _ _))
  · have hlarge := Nat.pow_le_pow_right (show 0 < 2 by norm_num) (show 19 ≤ n by omega)
    rw [min_eq_right (by rw [hmax]; omega)] at hnext
    exact (min_le_right _ _).trans (hnext.trans hbounds.next_le)

theorem paces_kept (hchunks : chunks A'.blocks = chunks A.blocks)
    (hnext : A'.nextBlockSize = A.nextBlockSize) : Paces A A' := by
  intro h
  rw [hchunks, hnext]
  exact h

theorem paces_slow (hpow : PowerOfTwo align) (oom misfit : Ret) :
    Paces A (A.slowWith (Arena.newBlockWith oom misfit sys) size align).2 := by
  cases hslow : A.slowWith (Arena.newBlockWith oom misfit sys) size align with
  | mk ret A' =>
  have hflush := chunks_finishSlowPath A
  intro h
  have hrefused : ∀ {blockSize n},
      A.nextBlockFor size align = some (blockSize,{ A with nextBlockSize := n }) →
      Paced (chunks A.finishSlowPath.blocks) n := by
    intro blockSize n hn
    have hbounds := nextBlockFor_bounds h.next_le hpow hn
    rw [hflush]
    exact paced_next h hbounds.growth_le hbounds.growth_max
  cases slowWith_ends oom misfit hslow with
  | @resumed i p delta b hr =>
    obtain ⟨hi,hchunk⟩ := retained_chunk hr
    refine paces_kept ?_ ?_ h
    · rw [setCurrentBlock_blocks, chunks_modify _ i ?_, hflush]
      rw [hchunk, finishSlowPath_get A (Nat.ne_of_gt hi)]
    · exact setCurrentBlock_nextBlockSize _ i
  | overflowed hr hn => exact paces_kept hflush rfl h
  | refused hr hn hnew => exact hrefused hn
  | misfitted hr hn hnew htry => exact hrefused hn
  | @fresh blockSize n p delta b b' hr hn hnew htry =>
    obtain ⟨-,-,-,base,-,rfl⟩ := tryNew_some hnew
    have hafter := (nextBlockFor_bounds h.next_le hpow hn).after
    have hpush := paced_push (c := chunk ⟨0,blockSize,base,max align minBlockAlign⟩) h
      (nextBlockFor_floor h hpow hn)
    rw [setCurrentBlock_blocks, setCurrentBlock_nextBlockSize]
    dsimp only
    rw [chunks_push, hflush, tryAlloc_chunk htry,
      show n = grownSize blockSize from congrArg Arena.nextBlockSize hafter]
    exact hpush

theorem paces_raw (hpow : PowerOfTwo align) (fallible : Bool) :
    Paces A (A.rawInner fallible sys size align).2 := by
  have hwith : ∀ slow overflow : Arena → ℕ → ℕ → Ret × Arena,
      Paces A (slow A size align).2 → Paces A (overflow A size align).2 →
        Paces A (A.rawInnerWith slow overflow size align).2 := by
    intro slow overflow hslow hover
    rcases rawInnerWith_ends slow overflow A size align with ⟨p,q,heq⟩ | heq | heq
    · rw [heq]
      exact paces_kept rfl rfl
    · rw [heq]
      exact hslow
    · rw [heq]
      exact hover
  cases fallible with
  | false => exact hwith _ _ (paces_slow hpow _ _) (paces_slow hpow _ _)
  | true => exact hwith _ _ (paces_slow hpow _ _) (paces_kept rfl rfl)

theorem paces_serve (r : Request) : Paces A (r.serve sys A).arena := by
  have hleft := @left_serve A sys r
  generalize (r.serve sys A).arena = B at hleft ⊢
  cases hleft with
  | bumped q registry => exact paces_kept rfl rfl
  | raw fallible hpow registry => exact paces_raw hpow fallible

theorem nextBlockSize_rewind (boom : ℕ → ℕ → Bool) (A : Arena) (cp : Checkpoint) :
    (A.rewind boom cp).arena.nextBlockSize = A.nextBlockSize := by
  unfold Arena.rewind
  split
  · dsimp only
    split
    · rfl
    · exact setCurrentBlock_nextBlockSize _ _
  · rfl

theorem nextBlockSize_reset (boom : ℕ → ℕ → Bool) (A : Arena) :
    (A.reset boom).arena.nextBlockSize = A.nextBlockSize := by
  unfold Arena.reset
  dsimp only
  split <;> rfl

theorem nextBlockSize_drop (boom : ℕ → ℕ → Bool) (t : Transaction) (A : Arena) :
    (t.drop boom A).arena.nextBlockSize = A.nextBlockSize := by
  unfold Transaction.drop
  dsimp only
  split
  · rfl
  · exact nextBlockSize_rewind _ _ _

theorem paces_step (w : World) (op : Op) : Paces w.arena (w.step op).arena := by
  cases op with
  | request sys r => exact paces_serve r
  | guarded sys r =>
    cases hopened : w.opened with
    | nil =>
      simp only [World.step, hopened]
      exact paces_kept rfl rfl
    | cons f rest =>
      simp only [World.step, hopened]
      rcases txn_serve f.txn sys w.arena r with ⟨-,heq⟩ | ⟨-,ret,-,lost,heq⟩
      · rw [heq]
        exact paces_serve r
      · rw [heq]
        exact paces_kept rfl rfl
  | checkpoint => exact paces_kept rfl rfl
  | rewind boom stamp =>
    simp only [World.step]
    split
    · exact paces_kept rfl rfl
    · exact paces_kept (chunks_rewind _ _ _) (nextBlockSize_rewind _ _ _)
  | reset boom => exact paces_kept (chunks_reset _ _) (nextBlockSize_reset _ _)
  | begin => exact paces_kept rfl rfl
  | commit =>
    simp only [World.step]
    split <;> exact paces_kept rfl rfl
  | rollback boom =>
    simp only [World.step]
    split
    · exact paces_kept rfl rfl
    · exact paces_kept (chunks_drop _ _ _) (nextBlockSize_drop _ _ _)
  | setLimit bytes =>
    simp only [World.step]
    split <;> exact paces_kept rfl rfl

end paces

theorem paced_withCapacity {sys : SystemAlloc} {feature : Bool} {initialBytes : ℕ} {A : Arena}
    (hA : Arena.withCapacity sys feature initialBytes = some A) :
    Paced (chunks A.blocks) A.nextBlockSize := by
  obtain ⟨block,hnew,rfl⟩ := Option.map_eq_some_iff.mp hA
  obtain ⟨-,-,-,base,-,rfl⟩ := tryNew_some hnew
  have hmin : minBlockSize = 64 := rfl
  have hmax : maxBlockSize = 2^24 := rfl
  have hnone : Paced [] 48 := ⟨by norm_num [hmax],min_le_left _ _,nofun⟩
  have hfloor : floorAt 0 ≤ max initialBytes minBlockSize := by
    unfold floorAt
    omega
  refine paced_next (paced_push (c := ⟨base,max initialBytes minBlockSize,_⟩) hnone hfloor) ?_
    (min_le_right _ _)
  change grownSize (max initialBytes minBlockSize) ≤
    min (saturatingMul (max initialBytes minBlockSize) 2) maxBlockSize
  unfold grownSize saturatingMul
  omega

theorem sum_floorAt (n : ℕ) : ∑ i ∈ Finset.range n, floorAt i =
    minBlockSize * (2^(min n 18) - 1) + (n-18) * maxBlockSize := by
  have hmin : minBlockSize = 64 := rfl
  have hmax : maxBlockSize = 2^24 := rfl
  induction n with
  | zero => rfl
  | succ n ih =>
    rw [Finset.sum_range_succ, ih, floorAt, hmin, hmax]
    by_cases hn : n < 18
    · have hle := Nat.pow_le_pow_right (show 0 < 2 by norm_num) (show n ≤ 17 by omega)
      have hpos := Nat.two_pow_pos n
      rw [min_eq_left (by omega : n ≤ 18), min_eq_left (by omega : n+1 ≤ 18), Nat.pow_succ,
        min_eq_left (by omega), show n - 18 = 0 by omega, show n+1 - 18 = 0 by omega]
      omega
    · have hge := Nat.pow_le_pow_right (show 0 < 2 by norm_num) (show 18 ≤ n by omega)
      rw [min_eq_right (by omega : 18 ≤ n), min_eq_right (by omega : 18 ≤ n+1),
        min_eq_right (by omega), show n+1 - 18 = n - 18 + 1 by omega]
      omega

/-- The blocks of an arena at least double, from 64 bytes, until they are as large as blocks get:
so the memory reserved bounds how many there are, in its logarithm at first and at 16 MiB each
later. -/
theorem block_growth {w : World} (h : Reached Honest w) :
    (∀ i < w.arena.blocks.len,
      min (minBlockSize * 2^i) maxBlockSize ≤ (w.arena.blocks.get i).capacity) ∧
    minBlockSize * (2^(min w.arena.stats.blockCount 18) - 1) +
      (w.arena.stats.blockCount - 18) * maxBlockSize ≤ w.arena.stats.bytesReserved := by
  have hwf := (inv_reached (fun _ _ hop => hop) h).wf
  have hpaced : Paced (chunks w.arena.blocks) w.arena.nextBlockSize := by
    obtain ⟨sys,feature,initialBytes,A,ops,-,hA,halong,rfl⟩ := h
    exact run_invariant World.step Honest (fun w => Paced (chunks w.arena.blocks) w.arena.nextBlockSize)
      (fun w op hw _ => paces_step w op hw) _ ops (paced_withCapacity hA) halong
  have hfloor : ∀ i < w.arena.blocks.len, floorAt i ≤ (w.arena.blocks.get i).capacity := by
    intro i hi
    exact hpaced.floor_le i _ (chunks_getElem hi)
  refine ⟨hfloor,?_⟩
  rw [← sum_floorAt]
  change _ ≤ w.arena.bytesReserved
  rw [hwf.reserved]
  exact Finset.sum_le_sum (fun i hi => hfloor i (Finset.mem_range.mp hi))

def doubled : List Op :=
  [.request noMemory ⟨.raw 40 8,false⟩,.request (oneBlock 128 8192) ⟨.str 100,true⟩]

theorem block_growth_doubled : ∃ A, smallArena false 64 = some A ∧
    (run World.step (World.start A) doubled).arena.stats.bytesReserved = 192 ∧
      minBlockSize * (2^(min (run World.step (World.start A) doubled).arena.stats.blockCount 18) - 1) +
        ((run World.step (World.start A) doubled).arena.stats.blockCount - 18) * maxBlockSize ≤
          (run World.step (World.start A) doubled).arena.stats.bytesReserved := by
  obtain ⟨A,hA⟩ : ∃ A, smallArena false 64 = some A := ⟨_,rfl⟩
  have hreached : Reached Honest (run World.step (World.start A) doubled) := by
    apply reached_small (by norm_num) hA
    have hraw : (40 : ℕ) < 2^64 := by norm_num
    have hstr : (100 : ℕ) < 2^63 := by norm_num
    refine ⟨⟨grants_noMemory _,hraw⟩,⟨?_,hstr⟩,trivial⟩
    cases hA
    exact grants_second ⟨128,rfl⟩ (by norm_num [addressTop]) (by decide +kernel)
      (by decide +kernel) (by norm_num)
  refine ⟨A,hA,?_,(block_growth hreached).2⟩
  cases hA
  decide +kernel

end FastArena.BlockGrowth
