import FastArena.ArenaInvariant

/-!
# What a raw request does

A request of some bytes at some alignment is served in the current block, or
moves the arena to a later block where it sits at the base, or is refused. One
inversion lemma says all of this; the rest of the development rests on it and
does not look inside the allocation paths again.
-/

set_option autoImplicit false

namespace FastArena.RawRequest
open FastArena.MachineWord FastArena.ByteSpan FastArena.ArenaBlock FastArena.InlineStorage
  FastArena.DropTracking FastArena.ArenaCore FastArena.ArenaInvariant

variable {A A' : Arena} {sys : SystemAlloc} {size align p : ℕ}

theorem finishSlowPath_get (A : Arena) {i : ℕ} (hi : i ≠ A.current) :
    A.finishSlowPath.blocks.get i = A.blocks.get i := by
  rw [Arena.finishSlowPath, InlineVec.get_modify, if_neg (fun h => hi h.1)]

theorem finishSlowPath_get_current (h : Wf A) :
    A.finishSlowPath.blocks.get A.current =
      { A.blocks.get A.current with offset := A.curOffset } := by
  rw [Arena.finishSlowPath, InlineVec.get_modify, if_pos ⟨rfl,current_lt h⟩]

theorem finishSlowPath_grown (h : Wf A) : Grown A.blocks A.finishSlowPath.blocks :=
  (laid_offset h.laid A.current A.curOffset (curOffset_le h)).2

@[simp] theorem finishSlowPath_len (A : Arena) : A.finishSlowPath.blocks.len = A.blocks.len :=
  InlineVec.len_modify _ _ _

theorem wf_finishSlowPath (h : Wf A) : Wf A.finishSlowPath := by
  have hgrown := finishSlowPath_grown h
  obtain ⟨hbase,hcap⟩ := extent_inj (hgrown.extent_eq A.current (current_lt h))
  exact {
    laid := (laid_offset h.laid A.current A.curOffset (curOffset_le h)).1
    current_le := h.current_le
    high_lt := by rw [finishSlowPath_len]; exact h.high_lt
    largest_lt := by rw [finishSlowPath_len]; exact h.largest_lt
    base_eq := h.base_eq.trans hbase.symm
    end_eq := h.end_eq.trans (congrArg (A.curBase + ·) hcap.symm)
    base_le := h.base_le
    ptr_le := h.ptr_le
    tail := by
      intro i hi hlt
      rw [finishSlowPath_len] at hi
      rw [finishSlowPath_get A (Nat.ne_of_gt hlt)]
      exact h.tail i hi hlt
    growth_min := h.growth_min
    growth_max := h.growth_max
    reserved := h.reserved.trans (totalCapacity_congr (finishSlowPath_len A) hgrown).symm
    allocated_lt := wadd_lt _ _ }

theorem firstFit_some {blocks : Blocks} {n i j delta : ℕ} {b : Block}
    (h : firstFit blocks size align n i = some (j,p,delta,b)) :
    i ≤ j ∧ j < i+n ∧ align ≤ (blocks.get j).align ∧
      (blocks.get j).tryAlloc size align = some (p,delta,b) := by
  induction n generalizing i with
  | zero => simp [firstFit] at h
  | succ n ih =>
    unfold firstFit at h
    have later := fun hrest => @ih (i+1) hrest
    split at h
    · next halign =>
      split at h
      · next p' delta' b' hfit =>
        simp only [Option.some.injEq, Prod.mk.injEq] at h
        obtain ⟨rfl,rfl,rfl,rfl⟩ := h
        exact ⟨le_refl i,by omega,halign,hfit⟩
      · obtain ⟨hlo,hhi,hrest⟩ := later h
        exact ⟨by omega,by omega,hrest⟩
    · obtain ⟨hlo,hhi,hrest⟩ := later h
      exact ⟨by omega,by omega,hrest⟩

theorem firstFit_finds {blocks : Blocks} {n i j : ℕ} (hlo : i ≤ j) (hhi : j < i+n)
    (halign : align ≤ (blocks.get j).align) (hfit : (blocks.get j).tryAlloc size align ≠ none) :
    firstFit blocks size align n i ≠ none := by
  induction n generalizing i with
  | zero => omega
  | succ n ih =>
    unfold firstFit
    by_cases hat : i = j
    · subst hat
      rw [if_pos halign]
      cases hserved : (blocks.get i).tryAlloc size align with
      | none => exact absurd hserved hfit
      | some found => exact Option.some_ne_none _
    · have hlater := ih (i := i+1) (by omega) (by omega)
      split
      · cases (blocks.get i).tryAlloc size align with
        | none => exact hlater
        | some found => exact Option.some_ne_none _
      · exact hlater

theorem firstFit_congr {blocks blocks' : Blocks} (size align n i : ℕ)
    (h : ∀ j, i ≤ j → blocks'.get j = blocks.get j) :
    firstFit blocks' size align n i = firstFit blocks size align n i := by
  induction n generalizing i with
  | zero => rfl
  | succ n ih =>
    unfold firstFit
    rw [h i (le_refl i), ih (i+1) (fun j hj => h j (by omega))]

theorem retained_finishSlowPath (A : Arena) (size align : ℕ) :
    A.finishSlowPath.retained size align = A.retained size align := by
  have hscan := fun n => firstFit_congr size align n (A.current+1)
    (fun j hj => finishSlowPath_get A (Nat.ne_of_gt hj))
  unfold Arena.retained
  rw [finishSlowPath_len, ← hscan]
  rfl

theorem retained_some (h : Wf A) (hpow : PowerOfTwo align) (hsize : size < 2^64) {i delta : ℕ}
    {b : Block} (hr : A.retained size align = some (i,p,delta,b)) :
    A.current < i ∧ i < A.blocks.len ∧ align ∣ p ∧ p = (A.blocks.get i).base ∧ delta = size ∧
      size ≤ (A.blocks.get i).capacity ∧ b = { A.blocks.get i with offset := size } := by
  unfold Arena.retained at hr
  split at hr
  · cases hr
  split at hr
  · obtain ⟨hlo,hhi,halign,hfit⟩ := firstFit_some hr
    have hi : i < A.blocks.len := by omega
    have hplaced := h.laid.placed i hi
    rw [tryAlloc_empty hplaced (h.tail i hi hlo) hpow halign hsize] at hfit
    split at hfit
    · next hcap =>
      simp only [Option.some.injEq, Prod.mk.injEq] at hfit
      obtain ⟨rfl,rfl,rfl⟩ := hfit
      exact ⟨hlo,hi,placed_align_dvd hplaced hpow halign,rfl,rfl,hcap,rfl⟩
    · cases hfit
  · cases hr

theorem nextBlockFor_finishSlowPath (A : Arena) (size align : ℕ) :
    A.finishSlowPath.nextBlockFor size align = (A.nextBlockFor size align).map
      (fun r => (r.1,{ A.finishSlowPath with nextBlockSize := r.2.nextBlockSize })) := by
  unfold Arena.nextBlockFor
  rw [Option.map_map]
  rfl

theorem nextBlockFor_some (h : minBlockSize ≤ A.nextBlockSize) {blockSize : ℕ} {B : Arena}
    (hn : A.nextBlockFor size align = some (blockSize,B)) :
    size ≤ blockSize ∧ ∃ n, minBlockSize ≤ n ∧ n ≤ maxBlockSize ∧
      B = { A with nextBlockSize := n } := by
  obtain ⟨worst,hworst,heq⟩ := Option.map_eq_some_iff.mp hn
  obtain ⟨hrounded,rfl⟩ := Prod.mk.inj heq
  obtain ⟨hsum,-⟩ := checkedAdd_some hworst
  have hpow2 : minBlockSize ≤ (checkedNextPowerOfTwo
      (max (max A.nextBlockSize worst) (wmul align 2))).getD (2^64-1) := by
    cases hp : checkedNextPowerOfTwo (max (max A.nextBlockSize worst) (wmul align 2)) with
    | none => simp [minBlockSize]
    | some q =>
      have hq := (checkedNextPowerOfTwo_some hp).2
      have hmax : A.nextBlockSize ≤ max (max A.nextBlockSize worst) (wmul align 2) := by simp
      exact h.trans (hmax.trans hq)
  rw [hrounded]
  generalize (checkedNextPowerOfTwo _).getD _ = q at hrounded hpow2
  refine ⟨?_,_,?_,min_le_right _ _,rfl⟩
  · rw [← hrounded]
    omega
  · unfold minBlockSize at hpow2 ⊢
    unfold maxBlockSize saturatingAdd at *
    omega

theorem freshBlock {blocks : Blocks} (hs : Grants sys blocks) (hpow : PowerOfTwo align)
    (hsize : size < 2^64) {blockSize : ℕ} (hfit : size ≤ blockSize) {b : Block}
    (hnew : Block.tryNew sys blockSize align = some b) :
    b.capacity = blockSize ∧ align ∣ b.base ∧
      Placed { b with offset := size } ∧ (∀ i < blocks.len, b.extent.Apart (blocks.get i).extent) ∧
      b.tryAlloc size align = some (b.base,size,{ b with offset := size }) := by
  obtain ⟨hpos,-,hmaxPow,base,hbase,rfl⟩ := tryNew_some hnew
  obtain ⟨hnonnull,hdvd,htop,hapart⟩ := hs blockSize (max align minBlockAlign) base hbase
  have hplaced : ∀ o ≤ blockSize, Placed ⟨o,blockSize,base,max align minBlockAlign⟩ := by
    intro o ho
    exact ⟨hnonnull,hpos,hmaxPow,le_max_right _ _,hdvd,htop,ho⟩
  have hle : align ≤ max align minBlockAlign := le_max_left _ _
  refine ⟨rfl,(powerOfTwo_dvd hpow hmaxPow hle).trans hdvd,hplaced size hfit,hapart,?_⟩
  rw [tryAlloc_empty (hplaced 0 (Nat.zero_le _)) rfl hpow hle hsize]
  exact if_pos hfit

theorem wf_withCapacity {feature : Bool} {initialBytes : ℕ}
    (hs : Grants sys (InlineVec.new : Blocks))
    (hA : Arena.withCapacity sys feature initialBytes = some A) :
    Wf A ∧ A.current = 0 ∧ A.curOffset = 0 ∧ A.bytesAllocated = 0 ∧ A.txnDepth = 0 ∧
      A.dropRegistry = DropRegistry.new feature := by
  obtain ⟨b,hb,rfl⟩ := Option.map_eq_some_iff.mp hA
  obtain ⟨hcap,-,hplaced,hapart,-⟩ := freshBlock hs minBlockAlign_pow (show 0 < 2^64 by norm_num)
    (Nat.zero_le _) hb
  have hoffset : b = { b with offset := 0 } := by
    obtain ⟨-,-,-,base,-,rfl⟩ := tryNew_some hb
    rfl
  rw [← hoffset] at hplaced
  have htop : b.base + b.capacity ≤ 2^63 := hplaced.below_top
  have hempty : Laid (InlineVec.new : Blocks) :=
    ⟨fun i hi => absurd hi (Nat.not_lt_zero i),fun i hi => absurd hi (Nat.not_lt_zero i)⟩
  obtain ⟨hlaid,-⟩ := laid_push hempty hplaced hapart
  have hget : ((InlineVec.new : Blocks).push b).get 0 = b := by
    rw [InlineVec.get_push, if_pos InlineVec.len_new.symm]
  refine ⟨?_,rfl,wsub_self (lt_of_le_of_lt (Nat.le_of_add_right_le htop) (by norm_num)),rfl,rfl,rfl⟩
  exact {
    laid := hlaid
    current_le := le_refl 0
    high_lt := by simp
    largest_lt := by simp
    base_eq := by dsimp only; rw [hget]
    end_eq := by
      dsimp only
      rw [hget, ← hcap, wadd_eq (lt_of_le_of_lt htop (by norm_num))]
    base_le := le_refl _
    ptr_le := by
      dsimp only
      rw [← hcap, wadd_eq (lt_of_le_of_lt htop (by norm_num))]
      exact Nat.le_add_right _ _
    tail := by
      intro i hi hlt
      rw [InlineVec.len_push] at hi
      simp only [InlineVec.len_new] at hi
      omega
    growth_min := by
      simp only [minBlockSize, maxBlockSize, saturatingMul]
      omega
    growth_max := min_le_right _ _
    reserved := by
      dsimp only
      rw [totalCapacity_push, hcap]
      exact (Nat.zero_add _).symm
    allocated_lt := by norm_num }

structure Moved (A : Arena) (size align p : ℕ) (A' : Arena) : Prop where
  wf : Wf A'
  grown : Grown A.blocks A'.blocks
  later : A.current < A'.current
  ptr_eq : p = A'.curBase
  end_eq : A'.curPtr = p + size
  aligned : align ∣ p
  bytes : A'.bytesAllocated = wadd (wadd A.bytesAllocated A.curOffset) size
  kept : ∀ i < A.current, A'.blocks.get i = A.blocks.get i
  left : (A'.blocks.get A.current).offset = A.curOffset
  skipped : ∀ i, A.current < i → i < A'.current → (A'.blocks.get i).offset = 0
  registry : A'.dropRegistry = A.dropRegistry
  depth : A'.txnDepth = A.txnDepth

def Stalled (A A' : Arena) : Prop :=
  ∃ n, minBlockSize ≤ n ∧ n ≤ maxBlockSize ∧ A' = { A.finishSlowPath with nextBlockSize := n }

def Refused (sys : SystemAlloc) (A : Arena) (size align : ℕ) : Prop :=
  A.retained size align = none ∧
    (A.nextBlockFor size align).bind (fun r => Block.tryNew sys r.1 align) = none

instance : Decidable (Refused sys A size align) := inferInstanceAs (Decidable (_ ∧ _))

theorem moved_of (h : Wf A) {B : Arena} {blocks : Blocks} {idx n r : ℕ}
    (hB : B = { A.finishSlowPath with
      bytesReserved := r
      bytesAllocated := wadd A.finishSlowPath.bytesAllocated size
      blocks := blocks
      nextBlockSize := n })
    (hlaid : Laid blocks) (hgrown : Grown A.finishSlowPath.blocks blocks)
    (hlater : A.current < idx) (hidx : idx < blocks.len)
    (hnew : ∀ i < blocks.len, i ≠ idx →
      i < A.blocks.len ∧ blocks.get i = A.finishSlowPath.blocks.get i)
    (hsize : (blocks.get idx).offset = size) (hdvd : align ∣ (blocks.get idx).base)
    (hmin : minBlockSize ≤ n) (hmax : n ≤ maxBlockSize) (hr : r = totalCapacity blocks) :
    Moved A size align (blocks.get idx).base (B.setCurrentBlock idx) := by
  have hlen : A.blocks.len ≤ blocks.len := by simpa using hgrown.len_le
  have hcur := current_lt h
  have hhigh := lt_of_lt_of_le h.high_lt hlen
  have hlargest := lt_of_lt_of_le h.largest_lt hlen
  have hget : ∀ i < blocks.len, i ≠ idx → i ≠ A.current →
      i < A.blocks.len ∧ blocks.get i = A.blocks.get i := by
    intro i hi hne hcurrent
    obtain ⟨hold,hsame⟩ := hnew i hi hne
    exact ⟨hold,hsame.trans (finishSlowPath_get A hcurrent)⟩
  have htail : ∀ i < blocks.len, idx < i → (blocks.get i).offset = 0 := by
    intro i hi hlt
    obtain ⟨hold,hsame⟩ := hget i hi (by omega) (by omega)
    rw [hsame]
    exact h.tail i hold (by omega)
  have hwf : Wf (B.setCurrentBlock idx) := by
    subst hB
    exact wf_setCurrentBlock hlaid hidx hhigh hlargest htail hmin hmax hr (wadd_lt _ _)
  have htop : (blocks.get idx).base + (blocks.get idx).capacity ≤ 2^63 :=
    (hlaid.placed idx hidx).below_top
  have hoff := (hlaid.placed idx hidx).offset_le
  obtain ⟨rem,best,-,heq⟩ := setCurrentBlock_spec B idx (by subst hB; exact hidx)
    (by subst hB; exact hlargest)
  subst hB
  rw [heq] at hwf ⊢
  exact {
    wf := hwf
    grown := grown_trans (finishSlowPath_grown h) hgrown
    later := hlater
    ptr_eq := rfl
    end_eq := by
      dsimp only
      rw [hsize, wadd_eq (by omega)]
    aligned := hdvd
    bytes := rfl
    kept := fun i hi => (hget i (by omega) (by omega) (by omega)).2
    left := by
      dsimp only
      rw [(hnew A.current (by omega) (by omega)).2, finishSlowPath_get_current h]
    skipped := by
      intro i hlo hhi
      dsimp only at hhi ⊢
      obtain ⟨hold,hsame⟩ := hget i (by omega) (by omega) (by omega)
      rw [hsame]
      exact h.tail i hold hlo
    registry := rfl
    depth := rfl }

theorem moved_retained (h : Wf A) (hpow : PowerOfTwo align) (hsize : size < 2^64)
    {i delta : ℕ} {b : Block} (hr : A.retained size align = some (i,p,delta,b)) :
    Moved A size align p (Arena.setCurrentBlock { A.finishSlowPath with
      bytesAllocated := wadd A.finishSlowPath.bytesAllocated delta
      blocks := A.finishSlowPath.blocks.modify i (fun _ => b) } i) := by
  obtain ⟨hlater,hi,hdvd,rfl,rfl,hcap,rfl⟩ := retained_some h hpow hsize hr
  have hsame := finishSlowPath_get A (Nat.ne_of_gt hlater)
  have hlen := finishSlowPath_len A
  have hfsp := wf_finishSlowPath h
  have hwrite : A.finishSlowPath.blocks.modify i (fun _ => { A.blocks.get i with offset := delta }) =
      A.finishSlowPath.blocks.modify i (fun b => { b with offset := delta }) :=
    InlineVec.modify_congr _ (by rw [hsame])
  have hentered : (A.finishSlowPath.blocks.modify i
      (fun b => { b with offset := delta })).get i = { A.blocks.get i with offset := delta } := by
    rw [InlineVec.get_modify, if_pos ⟨rfl,by rw [hlen]; exact hi⟩, hsame]
  obtain ⟨hlaid,hgrown⟩ := laid_offset hfsp.laid i delta (by rw [hsame]; exact hcap)
  have hreserved : A.bytesReserved = totalCapacity (A.finishSlowPath.blocks.modify i
      (fun b => { b with offset := delta })) :=
    hfsp.reserved.trans (totalCapacity_congr (InlineVec.len_modify _ _ _) hgrown).symm
  have hmoved : Moved A delta align _ _ := moved_of h rfl hlaid hgrown hlater
    (by rw [InlineVec.len_modify, hlen]; exact hi)
    (by
      intro j hj hne
      rw [InlineVec.len_modify, hlen] at hj
      rw [InlineVec.get_modify, if_neg (fun hh => hne hh.1)]
      exact ⟨hj,rfl⟩)
    (by rw [hentered]) (by rw [hentered]; exact hdvd) h.growth_min h.growth_max hreserved
  rw [hentered] at hmoved
  rw [hwrite]
  exact hmoved

theorem moved_fresh (h : Wf A) (hs : Grants sys A.blocks) (hpow : PowerOfTwo align)
    (hsize : size < 2^64) {blockSize n : ℕ} (hfit : size ≤ blockSize) {b : Block}
    (hmin : minBlockSize ≤ n) (hmax : n ≤ maxBlockSize)
    (hnew : Block.tryNew sys blockSize align = some b) :
    b.tryAlloc size align = some (b.base,size,{ b with offset := size }) ∧
      Moved A size align b.base (Arena.setCurrentBlock { A.finishSlowPath with
        bytesReserved := wadd A.bytesReserved blockSize
        bytesAllocated := wadd A.finishSlowPath.bytesAllocated size
        blocks := A.finishSlowPath.blocks.push { b with offset := size }
        nextBlockSize := n } A.blocks.len) := by
  have hfsp := wf_finishSlowPath h
  have hlen := finishSlowPath_len A
  have hgrants : Grants sys A.finishSlowPath.blocks := by
    intro capacity align base hsys
    obtain ⟨hpos,hdvd,htop,hapart⟩ := hs capacity align base hsys
    refine ⟨hpos,hdvd,htop,?_⟩
    intro i hi
    rw [hlen] at hi
    rw [(finishSlowPath_grown h).extent_eq i hi]
    exact hapart i hi
  obtain ⟨hcap,hdvd,hplaced,hapart,htry⟩ := freshBlock hgrants hpow hsize hfit hnew
  obtain ⟨hlaid,hgrown⟩ := laid_push hfsp.laid hplaced hapart
  have hentered : (A.finishSlowPath.blocks.push { b with offset := size }).get A.blocks.len =
      { b with offset := size } := by rw [InlineVec.get_push, if_pos hlen.symm]
  have hreserved : wadd A.bytesReserved blockSize =
      totalCapacity (A.finishSlowPath.blocks.push { b with offset := size }) := by
    have htop : totalCapacity (A.finishSlowPath.blocks.push { b with offset := size }) ≤ 2^63 :=
      totalCapacity_le hlaid
    rw [totalCapacity_push, ← hfsp.reserved] at htop ⊢
    dsimp only at htop ⊢
    rw [hcap] at htop ⊢
    exact wadd_eq (lt_of_le_of_lt htop (by norm_num))
  have hmoved : Moved A size align _ _ := moved_of h rfl hlaid hgrown (current_lt h)
    (by rw [InlineVec.len_push, hlen]; omega)
    (by
      intro j hj hne
      rw [InlineVec.len_push, hlen] at hj
      rw [InlineVec.get_push, if_neg (by rw [hlen]; exact hne)]
      exact ⟨by omega,rfl⟩)
    (by rw [hentered]) (by rw [hentered]; exact hdvd) hmin hmax hreserved
  rw [hentered] at hmoved
  exact ⟨htry,hmoved⟩

inductive SlowEnd (oom misfit : Ret) (sys : SystemAlloc) (A : Arena) (size align : ℕ) :
    Ret → Arena → Prop where
  | resumed {i p delta : ℕ} {b : Block} (hr : A.retained size align = some (i,p,delta,b)) :
      SlowEnd oom misfit sys A size align (.ptr p) (Arena.setCurrentBlock { A.finishSlowPath with
        bytesAllocated := wadd A.finishSlowPath.bytesAllocated delta
        blocks := A.finishSlowPath.blocks.modify i (fun _ => b) } i)
  | overflowed (hr : A.retained size align = none) (hn : A.nextBlockFor size align = none) :
      SlowEnd oom misfit sys A size align (.panic "allocation size overflow") A.finishSlowPath
  | refused {blockSize n : ℕ} (hr : A.retained size align = none)
      (hn : A.nextBlockFor size align = some (blockSize,{ A with nextBlockSize := n }))
      (hnew : Block.tryNew sys blockSize align = none) :
      SlowEnd oom misfit sys A size align oom { A.finishSlowPath with nextBlockSize := n }
  | misfitted {blockSize n : ℕ} {b : Block} (hr : A.retained size align = none)
      (hn : A.nextBlockFor size align = some (blockSize,{ A with nextBlockSize := n }))
      (hnew : Block.tryNew sys blockSize align = some b) (htry : b.tryAlloc size align = none) :
      SlowEnd oom misfit sys A size align misfit { A.finishSlowPath with nextBlockSize := n }
  | fresh {blockSize n p delta : ℕ} {b b' : Block} (hr : A.retained size align = none)
      (hn : A.nextBlockFor size align = some (blockSize,{ A with nextBlockSize := n }))
      (hnew : Block.tryNew sys blockSize align = some b)
      (htry : b.tryAlloc size align = some (p,delta,b')) :
      SlowEnd oom misfit sys A size align (.ptr p) (Arena.setCurrentBlock { A.finishSlowPath with
        bytesReserved := wadd A.bytesReserved blockSize
        bytesAllocated := wadd A.finishSlowPath.bytesAllocated delta
        blocks := A.finishSlowPath.blocks.push b'
        nextBlockSize := n } A.blocks.len)

theorem slowWith_ends (oom misfit : Ret) {ret : Ret}
    (h : A.slowWith (Arena.newBlockWith oom misfit sys) size align = (ret,A')) :
    SlowEnd oom misfit sys A size align ret A' := by
  unfold Arena.slowWith at h
  dsimp only at h
  rw [retained_finishSlowPath] at h
  cases hr : A.retained size align with
  | some found =>
    rw [hr] at h
    obtain ⟨rfl,rfl⟩ := Prod.mk.inj h
    exact .resumed hr
  | none =>
    rw [hr] at h
    dsimp only at h
    unfold Arena.newBlockWith at h
    rw [nextBlockFor_finishSlowPath] at h
    cases hnext : A.nextBlockFor size align with
    | none =>
      rw [hnext] at h
      obtain ⟨rfl,rfl⟩ := Prod.mk.inj h
      exact .overflowed hr hnext
    | some next =>
      obtain ⟨blockSize,B⟩ := next
      have hn : A.nextBlockFor size align =
          some (blockSize,{ A with nextBlockSize := B.nextBlockSize }) := by
        obtain ⟨worst,-,heq⟩ := Option.map_eq_some_iff.mp hnext
        rw [hnext, ← (Prod.mk.inj heq).2]
      rw [hnext] at h
      dsimp only [Option.map_some] at h
      cases hnew : Block.tryNew sys blockSize align with
      | none =>
        rw [hnew] at h
        obtain ⟨rfl,rfl⟩ := Prod.mk.inj h
        exact .refused hr hn hnew
      | some b =>
        rw [hnew] at h
        dsimp only at h
        cases htry : b.tryAlloc size align with
        | none =>
          rw [htry] at h
          obtain ⟨rfl,rfl⟩ := Prod.mk.inj h
          exact .misfitted hr hn hnew htry
        | some found =>
          rw [htry] at h
          dsimp only at h
          rw [InlineVec.len_push, finishSlowPath_len, Nat.add_sub_cancel] at h
          obtain ⟨rfl,rfl⟩ := Prod.mk.inj h
          exact .fresh hr hn hnew htry

theorem not_refused_of_new {blockSize : ℕ} {B : Arena} {b : Block}
    (hn : A.nextBlockFor size align = some (blockSize,B))
    (hnew : Block.tryNew sys blockSize align = some b) : ¬ Refused sys A size align := by
  intro hrefused
  have hbind := hrefused.2
  rw [hn] at hbind
  exact nomatch hnew.symm.trans hbind

/-- In a well-formed arena a slow path ends on a later block, or refused with one of two answers. -/
theorem slowWith_cases (h : Wf A) (hs : Grants sys A.blocks) (hpow : PowerOfTwo align)
    (hsize : size < 2^64) (oom misfit : Ret) {ret : Ret}
    (hr : A.slowWith (Arena.newBlockWith oom misfit sys) size align = (ret,A')) :
    (¬ Refused sys A size align ∧ ∃ p, ret = .ptr p ∧ Moved A size align p A') ∨
      (Refused sys A size align ∧ Stalled A A' ∧
        (ret = oom ∨ ret = .panic "allocation size overflow")) := by
  cases slowWith_ends oom misfit hr with
  | resumed hfound =>
    refine Or.inl ⟨fun hrefused => ?_,_,rfl,moved_retained h hpow hsize hfound⟩
    exact nomatch hfound.symm.trans hrefused.1
  | overflowed hfound hn =>
    have hrefused : Refused sys A size align := ⟨hfound,by rw [hn]; rfl⟩
    exact Or.inr ⟨hrefused,⟨A.nextBlockSize,h.growth_min,h.growth_max,rfl⟩,Or.inr rfl⟩
  | @refused blockSize n hfound hn hnew =>
    obtain ⟨-,m,hmin,hmax,heq⟩ := nextBlockFor_some h.growth_min hn
    obtain rfl : n = m := congrArg Arena.nextBlockSize heq
    have hrefused : Refused sys A size align := ⟨hfound,by rw [hn]; exact hnew⟩
    exact Or.inr ⟨hrefused,⟨n,hmin,hmax,rfl⟩,Or.inl rfl⟩
  | misfitted _ hn hnew htry =>
    obtain ⟨hfit,m,hmin,hmax,-⟩ := nextBlockFor_some h.growth_min hn
    exact nomatch htry.symm.trans (moved_fresh h hs hpow hsize hfit hmin hmax hnew).1
  | @fresh blockSize n p delta b b' _ hn hnew htry =>
    obtain ⟨hfit,m,hmin,hmax,heq⟩ := nextBlockFor_some h.growth_min hn
    obtain rfl : n = m := congrArg Arena.nextBlockSize heq
    obtain ⟨hserved,hmoved⟩ := moved_fresh h hs hpow hsize hfit hmin hmax hnew
    obtain ⟨rfl,hrest⟩ := Prod.mk.inj (Option.some.inj (htry.symm.trans hserved))
    obtain ⟨rfl,rfl⟩ := Prod.mk.inj hrest
    exact Or.inl ⟨not_refused_of_new hn hnew,_,rfl,hmoved⟩

theorem slowWith_current {oom misfit : Ret} (hoom : oom ≠ .ptr p) (hmisfit : misfit ≠ .ptr p)
    (h : A.slowWith (Arena.newBlockWith oom misfit sys) size align = (.ptr p,A')) :
    A'.current = ((A.retained size align).map (·.1)).getD A.blocks.len := by
  generalize hret : Ret.ptr p = ret at h
  cases slowWith_ends oom misfit h with
  | resumed hr =>
    rw [hr]
    exact setCurrentBlock_current _ _
  | overflowed => cases hret
  | refused => exact absurd hret.symm hoom
  | misfitted => exact absurd hret.symm hmisfit
  | fresh hr =>
    rw [hr]
    exact setCurrentBlock_current _ _

def Fits (A : Arena) (size align : ℕ) : Prop :=
  align ≤ minBlockAlign ∧ alignUp A.curPtr align + size ≤ A.curEnd

instance : Decidable (Fits A size align) := inferInstanceAs (Decidable (_ ∧ _))

structure Bumped (A : Arena) (size align p : ℕ) (A' : Arena) : Prop where
  fits : Fits A size align
  ptr_eq : p = alignUp A.curPtr align
  after : A' = { A with curPtr := p+size }

theorem alignUp_curPtr (h : Anchored A) (hpow : PowerOfTwo align) :
    A.curPtr ≤ alignUp A.curPtr align ∧ alignUp A.curPtr align < A.curPtr + align ∧
      align ∣ alignUp A.curPtr align := by
  have htop : A.curEnd ≤ 2^63 := anchored_end h
  have hptr := h.ptr_le
  have halign := powerOfTwo_le hpow
  exact alignUp_spec A.curPtr hpow (by omega)

theorem rawInnerWith_fits (h : Anchored A) (hpow : PowerOfTwo align) (hfits : Fits A size align)
    (slow overflow : Arena → ℕ → ℕ → Ret × Arena) :
    A.rawInnerWith slow overflow size align =
      (.ptr (alignUp A.curPtr align),{ A with curPtr := alignUp A.curPtr align + size }) := by
  obtain ⟨hlow,hroom⟩ := hfits
  have htop : A.curEnd ≤ 2^63 := anchored_end h
  obtain ⟨hge,-,-⟩ := alignUp_curPtr h hpow
  have hadd : checkedAdd (alignUp A.curPtr align) size = some (alignUp A.curPtr align + size) := by
    rw [checkedAdd, if_pos (by omega)]
  have hptr : wadd A.curPtr (wsub (alignUp A.curPtr align) A.curPtr) = alignUp A.curPtr align := by
    rw [wsub_eq hge (by omega), wadd_eq (by omega)]
    omega
  unfold Arena.rawInnerWith
  rw [if_neg (by omega)]
  dsimp only
  rw [hadd]
  dsimp only
  rw [if_pos hroom, hptr, wadd_eq (by omega)]

theorem rawInnerWith_not_fits (hfits : ¬ Fits A size align)
    (slow overflow : Arena → ℕ → ℕ → Ret × Arena) :
    A.rawInnerWith slow overflow size align =
      if align ≤ minBlockAlign ∧ checkedAdd (alignUp A.curPtr align) size = none then
        overflow A size align
      else slow A size align := by
  unfold Arena.rawInnerWith
  by_cases hlow : align ≤ minBlockAlign
  · rw [if_neg (by omega)]
    dsimp only
    cases hadd : checkedAdd (alignUp A.curPtr align) size with
    | none => rw [if_pos ⟨hlow,rfl⟩]
    | some newEnd =>
      obtain ⟨rfl,-⟩ := checkedAdd_some hadd
      dsimp only
      rw [if_neg (fun hroom => hfits ⟨hlow,hroom⟩), if_neg (fun hh => nomatch hh.2)]
  · rw [if_pos (by omega), if_neg (fun hh => hlow hh.1)]

def Overflows (A : Arena) (size align : ℕ) : Prop :=
  align ≤ minBlockAlign ∧ checkedAdd (alignUp A.curPtr align) size = none

instance : Decidable (Overflows A size align) := inferInstanceAs (Decidable (_ ∧ _))

/-- The fast paths read the cached pointers alone: arenas that share them take the same branch. -/
theorem rawInnerWith_branches (hptr : A'.curPtr = A.curPtr) (hend : A'.curEnd = A.curEnd)
    (slow overflow slow' overflow' : Arena → ℕ → ℕ → Ret × Arena) (size align : ℕ) :
    (∃ p q, A.rawInnerWith slow overflow size align = (.ptr p,{ A with curPtr := q }) ∧
      A'.rawInnerWith slow' overflow' size align = (.ptr p,{ A' with curPtr := q })) ∨
    (¬ Fits A size align ∧ ¬ Overflows A size align ∧
      A.rawInnerWith slow overflow size align = slow A size align ∧
        A'.rawInnerWith slow' overflow' size align = slow' A' size align) ∨
    (Overflows A size align ∧ A.rawInnerWith slow overflow size align = overflow A size align ∧
      A'.rawInnerWith slow' overflow' size align = overflow' A' size align) := by
  unfold Arena.rawInnerWith
  rw [hptr, hend]
  by_cases hlow : align > minBlockAlign
  · exact Or.inr (Or.inl ⟨fun hfits => absurd hfits.1 (Nat.not_le.mpr hlow),
      fun hover => absurd hover.1 (Nat.not_le.mpr hlow),if_pos hlow,if_pos hlow⟩)
  · rw [if_neg hlow, if_neg hlow]
    dsimp only
    cases hadd : checkedAdd (alignUp A.curPtr align) size with
    | none => exact Or.inr (Or.inr ⟨⟨Nat.not_lt.mp hlow,hadd⟩,rfl,rfl⟩)
    | some newEnd =>
      obtain ⟨rfl,-⟩ := checkedAdd_some hadd
      dsimp only
      by_cases hroom : alignUp A.curPtr align + size ≤ A.curEnd
      · exact Or.inl ⟨_,_,if_pos hroom,if_pos hroom⟩
      · have hsome : ¬ Overflows A size align := fun hover => nomatch hadd.symm.trans hover.2
        exact Or.inr (Or.inl ⟨fun hfits => hroom hfits.2,hsome,if_neg hroom,if_neg hroom⟩)

/-- A raw request moves the bump pointer at most, or goes on as one of the other branches does. -/
theorem rawInnerWith_ends (slow overflow : Arena → ℕ → ℕ → Ret × Arena) (A : Arena)
    (size align : ℕ) :
    (∃ p q, A.rawInnerWith slow overflow size align = (.ptr p,{ A with curPtr := q })) ∨
      A.rawInnerWith slow overflow size align = slow A size align ∨
        A.rawInnerWith slow overflow size align = overflow A size align := by
  rcases @rawInnerWith_branches A A rfl rfl slow overflow slow overflow size align with
    ⟨p,q,heq,-⟩ | ⟨-,-,heq,-⟩ | ⟨-,heq,-⟩
  · exact Or.inl ⟨p,q,heq⟩
  · exact Or.inr (Or.inl heq)
  · exact Or.inr (Or.inr heq)

/-- How a raw request can end, and when. -/
inductive RawEnd (fallible : Bool) (sys : SystemAlloc) (A : Arena) (size align : ℕ) :
    Ret → Arena → Prop where
  | bumped {p : ℕ} {A' : Arena} (h : Bumped A size align p A') :
      RawEnd fallible sys A size align (.ptr p) A'
  | moved {p : ℕ} {A' : Arena} (hfits : ¬ Fits A size align) (hroom : ¬ Refused sys A size align)
      (hslow : ¬ (fallible = true ∧ Overflows A size align)) (h : Moved A size align p A') :
      RawEnd fallible sys A size align (.ptr p) A'
  | stalled {ret : Ret} {A' : Arena} (hfits : ¬ Fits A size align)
      (hrefused : Refused sys A size align)
      (hslow : ¬ (fallible = true ∧ Overflows A size align)) (h : Stalled A A')
      (hret : ret = .none ∧ fallible = true ∨ ∃ message, ret = .panic message) :
      RawEnd fallible sys A size align ret A'
  | rejected (hfallible : fallible = true) (h : Overflows A size align) :
      RawEnd fallible sys A size align .none A

theorem not_fits_of_overflows (h : Wf A) (hover : Overflows A size align) :
    ¬ Fits A size align := by
  intro hfits
  have htop : A.curEnd ≤ 2^63 := curEnd_le h
  have hroom := hfits.2
  have hnone := hover.2
  rw [checkedAdd, if_pos (by omega)] at hnone
  cases hnone

theorem not_overflows (h : Wf A) (hpow : PowerOfTwo align) (hsize : size < 2^63) :
    ¬ Overflows A size align := by
  rintro ⟨hlow,hadd⟩
  have htop : A.curEnd ≤ 2^63 := curEnd_le h
  have hptr := h.ptr_le
  obtain ⟨k,hk,rfl⟩ := hpow
  have hle : alignUp A.curPtr (2^k) ≤ 2^63 := by
    apply alignUp_least ⟨k,hk,rfl⟩ _ (by omega) (pow_dvd_pow 2 (by omega))
    unfold minBlockAlign at hlow
    omega
  rw [checkedAdd, if_pos (by omega)] at hadd
  cases hadd

theorem slow_end (h : Wf A) (hs : Grants sys A.blocks) (hpow : PowerOfTwo align)
    (hsize : size < 2^64) (fallible : Bool) (hfits : ¬ Fits A size align)
    (hslow : ¬ (fallible = true ∧ Overflows A size align)) (oom misfit : Ret)
    (hoom : oom = .none ∧ fallible = true ∨ ∃ message, oom = .panic message) :
    RawEnd fallible sys A size align (A.slowWith (Arena.newBlockWith oom misfit sys) size align).1
      (A.slowWith (Arena.newBlockWith oom misfit sys) size align).2 := by
  cases hr : A.slowWith (Arena.newBlockWith oom misfit sys) size align with
  | mk ret A' =>
  rcases slowWith_cases h hs hpow hsize oom misfit hr with
    ⟨hroom,p,rfl,hmoved⟩ | ⟨hrefused,hstalled,hret⟩
  · exact .moved hfits hroom hslow hmoved
  · rcases hret with hret | hret
    · exact .stalled hfits hrefused hslow hstalled (hret ▸ hoom)
    · exact .stalled hfits hrefused hslow hstalled (Or.inr ⟨_,hret⟩)

theorem rawInner_fits (h : Anchored A) (sys : SystemAlloc) (hpow : PowerOfTwo align)
    (hfits : Fits A size align) (fallible : Bool) : A.rawInner fallible sys size align =
      (.ptr (alignUp A.curPtr align),{ A with curPtr := alignUp A.curPtr align + size }) := by
  cases fallible with
  | false => exact rawInnerWith_fits h hpow hfits _ _
  | true => exact rawInnerWith_fits h hpow hfits (Arena.allocSlowTry sys) (fun A _ _ => (.none,A))

theorem rawInner_slow (sys : SystemAlloc) (fallible : Bool) (hfits : ¬ Fits A size align) :
    (fallible = true ∧ Overflows A size align ∧
      A.rawInner fallible sys size align = (.none,A)) ∨
    ¬ (fallible = true ∧ Overflows A size align) ∧ ∃ oom misfit,
      (oom = .none ∧ fallible = true ∨ ∃ message, oom = .panic message) ∧
        (∀ p, misfit ≠ .ptr p) ∧ A.rawInner fallible sys size align =
          A.slowWith (Arena.newBlockWith oom misfit sys) size align := by
  cases fallible with
  | false =>
    refine Or.inr ⟨fun hh => Bool.false_ne_true hh.1,_,_,Or.inr ⟨_,rfl⟩,?_,
      (rawInnerWith_not_fits hfits _ _).trans (ite_self _)⟩
    exact fun _ => Ret.noConfusion
  | true =>
    have hraw : A.rawInner true sys size align =
        if Overflows A size align then (.none,A) else A.allocSlowTry sys size align :=
      rawInnerWith_not_fits hfits (Arena.allocSlowTry sys) (fun A _ _ => (.none,A))
    by_cases hover : Overflows A size align
    · exact Or.inl ⟨rfl,hover,hraw.trans (if_pos hover)⟩
    · exact Or.inr ⟨fun hh => hover hh.2,.none,.none,Or.inl ⟨rfl,rfl⟩,fun _ => Ret.noConfusion,
        hraw.trans (if_neg hover)⟩

theorem rawInner_current {fallible : Bool} (hfits : ¬ Fits A size align)
    (h : A.rawInner fallible sys size align = (.ptr p,A')) :
    A'.current = ((A.retained size align).map (·.1)).getD A.blocks.len := by
  rcases rawInner_slow sys fallible hfits with
    ⟨-,-,hraw⟩ | ⟨-,oom,misfit,hoom,hmisfit,hraw⟩
  · exact Ret.noConfusion (Prod.mk.inj (hraw.symm.trans h)).1
  · refine slowWith_current ?_ (hmisfit p) (hraw.symm.trans h)
    rcases hoom with ⟨rfl,-⟩ | ⟨message,rfl⟩
    · exact Ret.noConfusion
    · exact Ret.noConfusion

/-- The inversion lemma of the allocation paths. -/
theorem rawInner_end (h : Wf A) (hs : Grants sys A.blocks) (hpow : PowerOfTwo align)
    (hsize : size < 2^64) (fallible : Bool) :
    RawEnd fallible sys A size align (A.rawInner fallible sys size align).1
      (A.rawInner fallible sys size align).2 := by
  by_cases hfits : Fits A size align
  · rw [rawInner_fits (anchored h) sys hpow hfits fallible]
    exact .bumped ⟨hfits,rfl,rfl⟩
  · rcases rawInner_slow sys fallible hfits with
      ⟨hfallible,hover,hraw⟩ | ⟨hslow,oom,misfit,hoom,-,hraw⟩
    · rw [hraw]
      exact .rejected hfallible hover
    · rw [hraw]
      exact slow_end h hs hpow hsize fallible hfits hslow oom misfit hoom

/-- What a served request leaves, wherever it was served: the region lies at or above the old
position and the new position is its end. -/
structure Carved (A : Arena) (size align p : ℕ) (A' : Arena) : Prop where
  wf : Wf A'
  grown : Grown A.blocks A'.blocks
  aligned : align ∣ p
  base_le : A'.curBase ≤ p
  above : position A ≤ toLex (A'.current,p - A'.curBase)
  end_eq : A'.curPtr = p + size
  kept : ∀ i < A.current, A'.blocks.get i = A.blocks.get i
  registry : A'.dropRegistry = A.dropRegistry
  depth : A'.txnDepth = A.txnDepth

theorem wf_bump (h : Wf A) {q : ℕ} (hlo : A.curBase ≤ q) (hhi : q ≤ A.curEnd) :
    Wf { A with curPtr := q } := { h with base_le := hlo, ptr_le := hhi }

theorem carved_bumped (h : Wf A) (hpow : PowerOfTwo align) (hb : Bumped A size align p A') :
    Carved A size align p A' := by
  obtain ⟨hfits,rfl,rfl⟩ := hb
  obtain ⟨hge,-,hdvd⟩ := alignUp_curPtr (anchored h) hpow
  have hbase := h.base_le
  exact {
    wf := wf_bump h (h.base_le.trans (by omega)) hfits.2
    grown := grown_refl _
    aligned := hdvd
    base_le := by dsimp only; omega
    above := by
      rw [position, Prod.Lex.toLex_le_toLex, curOffset_eq h]
      exact Or.inr ⟨rfl,by dsimp only; omega⟩
    end_eq := rfl
    kept := fun _ _ => rfl
    registry := rfl
    depth := rfl }

theorem carved_moved (hm : Moved A size align p A') : Carved A size align p A' where
  wf := hm.wf
  grown := hm.grown
  aligned := hm.aligned
  base_le := le_of_eq hm.ptr_eq.symm
  above := by
    rw [position, Prod.Lex.toLex_le_toLex]
    exact Or.inl hm.later
  end_eq := hm.end_eq
  kept := hm.kept
  registry := hm.registry
  depth := hm.depth

structure Unmoved (A A' : Arena) : Prop where
  wf : Wf A'
  grown : Grown A.blocks A'.blocks
  current_eq : A'.current = A.current
  base_eq : A'.curBase = A.curBase
  ptr_eq : A'.curPtr = A.curPtr
  kept : ∀ i < A.current, A'.blocks.get i = A.blocks.get i
  registry : A'.dropRegistry = A.dropRegistry
  depth : A'.txnDepth = A.txnDepth

theorem unmoved_refl (h : Wf A) : Unmoved A A :=
  ⟨h,grown_refl _,rfl,rfl,rfl,fun _ _ => rfl,rfl,rfl⟩

theorem unmoved_stalled (h : Wf A) (hs : Stalled A A') : Unmoved A A' := by
  obtain ⟨n,hmin,hmax,rfl⟩ := hs
  have hfsp := wf_finishSlowPath h
  exact {
    wf := { hfsp with growth_min := hmin, growth_max := hmax }
    grown := finishSlowPath_grown h
    current_eq := rfl
    base_eq := rfl
    ptr_eq := rfl
    kept := fun i hi => finishSlowPath_get A (Nat.ne_of_lt hi)
    registry := rfl
    depth := rfl }

/-- A raw request carves out a region and returns its address, or returns none and moves nothing. -/
theorem rawEnd_cases (h : Wf A) (hpow : PowerOfTwo align) {fallible : Bool} {ret : Ret}
    (hend : RawEnd fallible sys A size align ret A') :
    (∃ p, ret = .ptr p ∧ Carved A size align p A') ∨
      ((∀ p, ret ≠ .ptr p) ∧ Unmoved A A') := by
  cases hend with
  | bumped hb => exact Or.inl ⟨_,rfl,carved_bumped h hpow hb⟩
  | moved _ _ _ hm => exact Or.inl ⟨_,rfl,carved_moved hm⟩
  | stalled _ _ _ hstalled hret =>
    refine Or.inr ⟨?_,unmoved_stalled h hstalled⟩
    rintro p rfl
    rcases hret with ⟨hret,-⟩ | ⟨_,hret⟩ <;> cases hret
  | rejected _ _ => exact Or.inr ⟨nofun,unmoved_refl h⟩

end FastArena.RawRequest
