import FastArena.ListBuffer

/-!
# The arena with every check made

The same paths once more, with what a release build leaves out: the bound of
each access to the block list, the sign of a block's room, and in a debug build
the range of all other arithmetic. Where no check fails the outcome is the one
of the unchecked model.
-/

set_option autoImplicit false

namespace FastArena.CheckedArena
open FastArena.MachineWord FastArena.ArenaBlock FastArena.InlineStorage FastArena.DropTracking
  FastArena.ArenaCore FastArena.ArenaInvariant FastArena.RawRequest FastArena.ArenaSweep
  FastArena.ListBuffer

/-- A failed check: an index past the end of the block list, a block filled beyond its capacity,
or, in a debug build, any other arithmetic. -/
inductive Fault where
  | index
  | room
  | overflow
  deriving DecidableEq, Repr

abbrev Checked := Except Fault

theorem ok_bind {α β : Type} (a : α) (f : α → Checked β) : (Except.ok a >>= f) = f a := rfl

theorem error_bind {α β : Type} (e : Fault) (f : α → Checked β) :
    ((Except.error e : Checked α) >>= f) = Except.error e := rfl

def getBlock (blocks : Blocks) (i : ℕ) : Checked Block :=
  if i < blocks.len then .ok (blocks.get i) else .error .index

def setBlock (blocks : Blocks) (i : ℕ) (f : Block → Block) : Checked Blocks :=
  if i < blocks.len then .ok (blocks.modify i f) else .error .index

def room (b : Block) : Checked ℕ :=
  if b.offset ≤ b.capacity then .ok (wsub b.capacity b.offset) else .error .room

section paths
variable (debug : Bool)

def add (a b : ℕ) : Checked ℕ :=
  if debug = true ∧ 2^64 ≤ a+b then .error .overflow else .ok (wadd a b)

def sub (a b : ℕ) : Checked ℕ :=
  if debug = true ∧ a < b then .error .overflow else .ok (wsub a b)

def mul (a b : ℕ) : Checked ℕ :=
  if debug = true ∧ 2^64 ≤ a*b then .error .overflow else .ok (wmul a b)

def alignUp (addr align : ℕ) : Checked ℕ := do
  let sum ← add debug addr align
  let top ← sub debug sum 1
  let low ← sub debug align 1
  return top &&& wnot low

def tryAlloc (b : Block) (size align : ℕ) : Checked (Option (ℕ × ℕ × Block)) := do
  let cur ← add debug b.base b.offset
  let aligned ← alignUp debug cur align
  let within ← sub debug aligned b.base
  match checkedAdd within size with
  | none => return none
  | some newOffset =>
    if newOffset > b.capacity then return none
    else
      let delta ← sub debug newOffset b.offset
      return some (wadd b.base within,delta,{ b with offset := newOffset })

def finishSlowPath (A : Arena) : Checked Arena := do
  let used ← sub debug A.curPtr A.curBase
  let bytes ← add debug A.bytesAllocated used
  let blocks ← setBlock A.blocks A.current (fun b => { b with offset := used })
  return { A with bytesAllocated := bytes, blocks := blocks }

def firstFit (blocks : Blocks) (size align : ℕ) :
    ℕ → ℕ → Checked (Option (ℕ × ℕ × ℕ × Block))
  | 0, _ => .ok none
  | n+1, i => do
    let block ← getBlock blocks i
    if block.align ≥ align then
      let found ← tryAlloc debug block size align
      match found with
      | some (p,delta,block) => return some (i,p,delta,block)
      | none => firstFit blocks size align n (i+1)
    else firstFit blocks size align n (i+1)

def retained (A : Arena) (size align : ℕ) : Checked (Option (ℕ × ℕ × ℕ × Block)) :=
  if align > minBlockAlign then .ok none
  else if size ≤ A.largestRemaining then do
    let start ← add debug A.current 1
    firstFit debug A.blocks size align (A.blocks.len - start) start
  else .ok none

def largestFrom (blocks : Blocks) : ℕ → ℕ → ℕ → ℕ → Checked (ℕ × ℕ)
  | 0, _, maxRem, maxIdx => .ok (maxRem,maxIdx)
  | n+1, i, maxRem, maxIdx => do
    let block ← getBlock blocks i
    let rem ← room block
    if rem > maxRem then largestFrom blocks n (i+1) rem i
    else largestFrom blocks n (i+1) maxRem maxIdx

def computeLargestRemaining (A : Arena) (fromIdx : ℕ) : Checked Arena := do
  let start ← add debug fromIdx 1
  let best ← largestFrom A.blocks (A.blocks.len - start) start 0 fromIdx
  return { A with largestRemaining := best.1, largestRemainingIdx := best.2 }

def setCurrentBlock (A : Arena) (idx : ℕ) : Checked Arena := do
  let block ← getBlock A.blocks idx
  let A := { A with
    current := idx
    highWaterMark := if idx > A.highWaterMark then idx else A.highWaterMark
    curBase := block.base
    curPtr := wadd block.base block.offset
    curEnd := wadd block.base block.capacity }
  let start ← add debug idx 1
  if A.largestRemainingIdx ≥ start then
    let blk ← getBlock A.blocks A.largestRemainingIdx
    let rem ← room blk
    return { A with largestRemaining := rem }
  else computeLargestRemaining debug A idx

def nextBlockFor (A : Arena) (size align : ℕ) : Checked (Option (ℕ × Arena)) := do
  let low ← sub debug align 1
  match checkedAdd size low with
  | none => return none
  | some worst =>
    let twice ← mul debug align 2
    let wanted := max (max A.nextBlockSize worst) twice
    let rounded :=
      max (max (min ((checkedNextPowerOfTwo wanted).getD (2^64-1)) maxBlockSize) worst) twice
    return some (rounded,
      { A with nextBlockSize := min (saturatingAdd rounded (rounded/2)) maxBlockSize })

def newBlock (oom misfit : Ret) (sys : SystemAlloc) (A : Arena) (size align : ℕ) :
    Checked (Ret × Arena) := do
  match ← nextBlockFor debug A size align with
  | none => return (.panic "allocation size overflow",A)
  | some (blockSize,A) =>
    match Block.tryNew sys blockSize align with
    | none => return (oom,A)
    | some block =>
      match ← tryAlloc debug block size align with
      | none => return (misfit,A)
      | some (p,delta,block) =>
        let reserved ← add debug A.bytesReserved blockSize
        let bytes ← add debug A.bytesAllocated delta
        let A := { A with bytesReserved := reserved, bytesAllocated := bytes }
        match pushPanic sys A.blocks with
        | some message => return (.panic message,A)
        | none =>
          let A := { A with blocks := A.blocks.push block }
          let last ← sub debug A.blocks.len 1
          let A ← setCurrentBlock debug A last
          return (.ptr p,A)

def slow (oom misfit : Ret) (sys : SystemAlloc) (A : Arena) (size align : ℕ) :
    Checked (Ret × Arena) := do
  let A ← finishSlowPath debug A
  match ← retained debug A size align with
  | some (i,p,delta,block) =>
    let bytes ← add debug A.bytesAllocated delta
    let blocks ← setBlock A.blocks i (fun _ => block)
    let A ← setCurrentBlock debug { A with bytesAllocated := bytes, blocks := blocks } i
    return (.ptr p,A)
  | none => newBlock debug oom misfit sys A size align

def rawInnerWith (slow overflow : Arena → ℕ → ℕ → Checked (Ret × Arena)) (A : Arena)
    (size align : ℕ) : Checked (Ret × Arena) :=
  if align > minBlockAlign then slow A size align
  else do
    let aligned ← alignUp debug A.curPtr align
    match checkedAdd aligned size with
    | none => overflow A size align
    | some newEnd =>
      if newEnd ≤ A.curEnd then
        let offset ← sub debug aligned A.curPtr
        let alignedPtr := wadd A.curPtr offset
        return (.ptr alignedPtr,{ A with curPtr := wadd alignedPtr size })
      else slow A size align

def rawInner : Bool → SystemAlloc → Arena → ℕ → ℕ → Checked (Ret × Arena)
  | false, sys =>
    let slow := slow debug (.panic "arena: out of memory")
      (.panic "fresh block must satisfy request") sys
    rawInnerWith debug slow slow
  | true, sys => rawInnerWith debug (slow debug .none .none sys) (fun A _ _ => .ok (.none,A))

end paths

def clearOffsets : ℕ → ℕ → Blocks → Checked Blocks
  | 0, _, blocks => .ok blocks
  | n+1, i, blocks => do
    let blocks ← setBlock blocks i (fun b => { b with offset := 0 })
    clearOffsets n (i+1) blocks

def largestCapacity (blocks : Blocks) : ℕ → ℕ → ℕ → ℕ → Checked (ℕ × ℕ)
  | 0, _, maxRem, maxIdx => .ok (maxRem,maxIdx)
  | n+1, i, maxRem, maxIdx => do
    let block ← getBlock blocks i
    if block.capacity > maxRem then largestCapacity blocks n (i+1) block.capacity i
    else largestCapacity blocks n (i+1) maxRem maxIdx

def rewind (boom : ℕ → ℕ → Bool) (A : Arena) (cp : Checkpoint) : Checked Swept :=
  if cp.blockIdx < A.blocks.len then
    let dropped := A.dropRegistry.runDropsUntil boom cp.dropRegistryLen
    let A := { A with dropRegistry := dropped.2.1 }
    if dropped.2.2 then .ok ⟨dropped.1,A,some dropPanic⟩
    else do
      let blocks ← clearOffsets (A.current+1 - (cp.blockIdx+1)) (cp.blockIdx+1) A.blocks
      let blocks ← setBlock blocks cp.blockIdx (fun b => { b with offset := cp.offset })
      let A := { A with blocks := blocks, bytesAllocated := wsub cp.bytesAllocated cp.offset }
      let A ← setCurrentBlock false A cp.blockIdx
      return ⟨dropped.1,A,none⟩
  else
    .ok ⟨[],A,some s!"rewind: checkpoint block_idx {cp.blockIdx} out of range (arena has {A.blocks.len} blocks)"⟩

def reset (boom : ℕ → ℕ → Bool) (A : Arena) : Checked Swept :=
  let dropped := A.dropRegistry.runAllDrops boom
  let A := { A with dropRegistry := dropped.2.1 }
  if dropped.2.2 then .ok ⟨dropped.1,A,some dropPanic⟩
  else do
    let blocks ← clearOffsets (A.highWaterMark+1) 0 A.blocks
    let b0 ← getBlock blocks 0
    let best ← if blocks.len > 1 then largestCapacity blocks (blocks.len-1) 1 0 0 else .ok (0,0)
    return ⟨dropped.1,{ A with
      blocks := blocks
      highWaterMark := 0
      bytesAllocated := 0
      current := 0
      curBase := b0.base
      curPtr := b0.base
      curEnd := wadd b0.base b0.capacity
      largestRemaining := best.1
      largestRemainingIdx := best.2 },none⟩

section blocks
variable {debug : Bool} {A : Arena} {size align : ℕ}

theorem getBlock_ok {blocks : Blocks} {i : ℕ} (h : i < blocks.len) :
    getBlock blocks i = .ok (blocks.get i) := if_pos h

theorem setBlock_ok {blocks : Blocks} {i : ℕ} (h : i < blocks.len) (f : Block → Block) :
    setBlock blocks i f = .ok (blocks.modify i f) := if_pos h

theorem room_ok {b : Block} (h : b.offset ≤ b.capacity) :
    room b = .ok (wsub b.capacity b.offset) := if_pos h

theorem add_ok {a b : ℕ} (h : debug = true → a+b < 2^64) : add debug a b = .ok (wadd a b) :=
  if_neg (fun hh => Nat.not_le.mpr (h hh.1) hh.2)

theorem sub_ok {a b : ℕ} (h : b ≤ a) : sub debug a b = .ok (wsub a b) :=
  if_neg (fun hh => Nat.not_le.mpr hh.2 h)

theorem mul_ok {a b : ℕ} (h : debug = true → a*b < 2^64) : mul debug a b = .ok (wmul a b) :=
  if_neg (fun hh => Nat.not_le.mpr (h hh.1) hh.2)

theorem alignUp_ok {addr : ℕ} (hpow : PowerOfTwo align) (h : addr + align < 2^64) :
    alignUp debug addr align = .ok (ArenaBlock.alignUp addr align) := by
  have hpos := powerOfTwo_pos hpow
  have hsum : 1 ≤ wadd addr align := by
    rw [wadd_eq h]
    omega
  unfold alignUp
  rw [add_ok (fun _ => h), ok_bind, sub_ok hsum, ok_bind, sub_ok hpos, ok_bind]
  rfl

theorem tryAlloc_ok {b : Block} (hpow : PowerOfTwo align)
    (h : b.base + b.offset + align < 2^64) :
    tryAlloc debug b size align = .ok (b.tryAlloc size align) := by
  obtain ⟨hge,hlt,-⟩ := alignUp_spec (b.base + b.offset) hpow (by omega)
  have hcur : wadd b.base b.offset = b.base + b.offset := wadd_eq (by omega)
  unfold tryAlloc Block.tryAlloc
  rw [add_ok (fun _ => by omega), ok_bind, hcur, alignUp_ok hpow h, ok_bind, sub_ok (by omega),
    ok_bind]
  dsimp only
  cases hadd : checkedAdd (wsub (ArenaBlock.alignUp (b.base + b.offset) align) b.base) size with
  | none => rfl
  | some newOffset =>
    obtain ⟨rfl,-⟩ := checkedAdd_some hadd
    dsimp only
    split
    · rfl
    · rw [sub_ok, ok_bind]
      · rfl
      · rw [wsub_eq (by omega) (by omega)]
        omega

theorem placed_top {b : Block} (h : Placed b) (hpow : PowerOfTwo align)
    (hle : align ≤ b.align) : b.base + b.offset + align < 2^64 := by
  have htop : b.base + b.capacity ≤ 2^63 := h.below_top
  have hoff := h.offset_le
  have hcap := h.capacity_pos
  have hbase := Nat.le_of_dvd h.nonnull (placed_align_dvd h hpow hle)
  omega

theorem firstFit_ok {blocks : Blocks} (h : Laid blocks) (hpow : PowerOfTwo align) (n i : ℕ)
    (hn : i+n ≤ blocks.len) :
    firstFit debug blocks size align n i = .ok (ArenaCore.firstFit blocks size align n i) := by
  induction n generalizing i with
  | zero => rfl
  | succ n ih =>
    have hi : i < blocks.len := by omega
    unfold firstFit ArenaCore.firstFit
    rw [getBlock_ok hi, ok_bind]
    by_cases halign : (blocks.get i).align ≥ align
    · rw [if_pos halign, if_pos halign,
        tryAlloc_ok hpow (placed_top (h.placed i hi) hpow halign), ok_bind]
      cases (blocks.get i).tryAlloc size align with
      | none => exact ih (i+1) (by omega)
      | some found => rfl
    · rw [if_neg halign, if_neg halign]
      exact ih (i+1) (by omega)

theorem largestFrom_ok {blocks : Blocks} (h : Laid blocks) (n i maxRem maxIdx : ℕ)
    (hn : i+n ≤ blocks.len) : largestFrom blocks n i maxRem maxIdx = .ok (ArenaCore.largestFrom
      (fun i => wsub (blocks.get i).capacity (blocks.get i).offset) n i maxRem maxIdx) := by
  induction n generalizing i maxRem maxIdx with
  | zero => rfl
  | succ n ih =>
    have hi : i < blocks.len := by omega
    unfold largestFrom ArenaCore.largestFrom
    rw [getBlock_ok hi, ok_bind, room_ok (h.placed i hi).offset_le, ok_bind]
    split
    · exact ih (i+1) _ _ (by omega)
    · exact ih (i+1) _ _ (by omega)

theorem largestCapacity_ok {blocks : Blocks} (n i maxRem maxIdx : ℕ) (hn : i+n ≤ blocks.len) :
    largestCapacity blocks n i maxRem maxIdx = .ok (ArenaCore.largestFrom
      (fun i => (blocks.get i).capacity) n i maxRem maxIdx) := by
  induction n generalizing i maxRem maxIdx with
  | zero => rfl
  | succ n ih =>
    have hi : i < blocks.len := by omega
    unfold largestCapacity ArenaCore.largestFrom
    rw [getBlock_ok hi, ok_bind]
    split
    · exact ih (i+1) _ _ (by omega)
    · exact ih (i+1) _ _ (by omega)

theorem clearOffsets_ok {blocks : Blocks} (n i : ℕ) (hn : i+n ≤ blocks.len) :
    clearOffsets n i blocks = .ok (ArenaCore.clearOffsets n i blocks) := by
  induction n generalizing i blocks with
  | zero => rfl
  | succ n ih =>
    unfold clearOffsets ArenaCore.clearOffsets
    rw [setBlock_ok (by omega), ok_bind]
    apply ih
    rw [InlineVec.len_modify]
    omega

theorem len_le {blocks : Blocks} (h : Laid blocks) : blocks.len ≤ 2^63 := by
  have htop : totalCapacity blocks ≤ 2^63 := totalCapacity_le h
  calc
    blocks.len = ∑ _ ∈ Finset.range blocks.len, 1 := by simp
    _ ≤ totalCapacity blocks := Finset.sum_le_sum
      (fun i hi => (h.placed i (Finset.mem_range.mp hi)).capacity_pos)
    _ ≤ 2^63 := htop

theorem setCurrentBlock_ok (h : Laid A.blocks) {idx : ℕ} (hidx : idx < A.blocks.len)
    (hlargest : A.largestRemainingIdx < A.blocks.len) :
    setCurrentBlock debug A idx = .ok (A.setCurrentBlock idx) := by
  have hlen := len_le h
  have hstart : wadd idx 1 = idx+1 := wadd_eq (by omega)
  unfold setCurrentBlock Arena.setCurrentBlock
  rw [getBlock_ok hidx, ok_bind, add_ok (fun _ => by omega), ok_bind, hstart]
  dsimp only
  split
  · rw [getBlock_ok hlargest, ok_bind, room_ok (h.placed _ hlargest).offset_le, ok_bind]
    rfl
  · unfold computeLargestRemaining Arena.computeLargestRemaining
    rw [add_ok (fun _ => by omega), ok_bind, hstart]
    dsimp only
    rw [largestFrom_ok h _ _ _ _ (by omega), ok_bind]
    rfl

end blocks

section slow
variable {debug : Bool} {A : Arena} {sys : SystemAlloc} {size align : ℕ}

theorem sane_current (h : Wf (mended A)) : A.current < A.blocks.len :=
  lt_of_le_of_lt h.current_le h.high_lt

theorem finishSlowPath_ok (h : Wf (mended A))
    (hbytes : debug = true → A.bytesAllocated + A.curOffset < 2^64) :
    finishSlowPath debug A = .ok A.finishSlowPath := by
  have hbase : A.curBase ≤ A.curPtr := h.base_le
  have hadd : add debug A.bytesAllocated (wsub A.curPtr A.curBase) =
      .ok (wadd A.bytesAllocated A.curOffset) := add_ok hbytes
  unfold finishSlowPath
  rw [sub_ok hbase, ok_bind, hadd, ok_bind, setBlock_ok (sane_current h), ok_bind]
  rfl

theorem finishSlowPath_error (h : Wf (mended A))
    (hbytes : 2^64 ≤ A.bytesAllocated + A.curOffset) :
    finishSlowPath true A = .error .overflow := by
  have hbase : A.curBase ≤ A.curPtr := h.base_le
  have hadd : add true A.bytesAllocated (wsub A.curPtr A.curBase) = .error .overflow :=
    if_pos ⟨rfl,hbytes⟩
  unfold finishSlowPath
  rw [sub_ok hbase, ok_bind, hadd, error_bind]

theorem retained_ok (h : Wf (mended A)) (hpow : PowerOfTwo align) :
    retained debug A size align = .ok (A.retained size align) := by
  have hlaid : Laid A.blocks := h.laid
  have hcur := sane_current h
  have hlen := len_le hlaid
  unfold retained Arena.retained
  split
  · rfl
  · split
    · rw [add_ok (fun _ => by omega), ok_bind, wadd_eq (by omega)]
      exact firstFit_ok hlaid hpow _ _ (by omega)
    · rfl

theorem nextBlockFor_ok (hpow : PowerOfTwo align)
    (htwice : debug = true → checkedAdd size (wsub align 1) ≠ none → align*2 < 2^64) :
    nextBlockFor debug A size align = .ok (A.nextBlockFor size align) := by
  unfold nextBlockFor Arena.nextBlockFor
  rw [sub_ok (powerOfTwo_pos hpow), ok_bind]
  cases hworst : checkedAdd size (wsub align 1) with
  | none => rfl
  | some worst =>
    dsimp only
    rw [mul_ok (fun hdebug => htwice hdebug (by rw [hworst]; nofun)), ok_bind]
    rfl

theorem nextBlockFor_error (hpow : PowerOfTwo align) {worst : ℕ}
    (hworst : checkedAdd size (wsub align 1) = some worst) (htwice : 2^64 ≤ align*2) :
    nextBlockFor true A size align = .error .overflow := by
  have hmul : mul true align 2 = .error .overflow := if_pos ⟨rfl,htwice⟩
  unfold nextBlockFor
  rw [sub_ok (powerOfTwo_pos hpow), ok_bind, hworst]
  dsimp only
  rw [hmul, error_bind]

theorem fresh_top {blocks : Blocks} (hs : Grants sys blocks) (hpow : PowerOfTwo align)
    {blockSize : ℕ} {b : Block} (hnew : Block.tryNew sys blockSize align = some b) :
    b.base + b.offset + align < 2^64 := by
  have hplaced : Placed { b with offset := 0 } := (freshBlock hs hpow (by norm_num)
    (Nat.zero_le _) hnew).2.2.1
  have hzero : b = { b with offset := 0 } := by
    obtain ⟨-,-,-,base,-,rfl⟩ := tryNew_some hnew
    rfl
  have halign : align ≤ b.align := by
    obtain ⟨-,-,-,base,-,rfl⟩ := tryNew_some hnew
    exact le_max_left _ _
  rw [← hzero] at hplaced
  exact placed_top hplaced hpow halign

theorem newBlock_ok (h : Wf (mended A)) (hs : Grants sys A.blocks) (hpow : PowerOfTwo align)
    (hsize : size < 2^64) (oom misfit : Ret)
    (htwice : debug = true → checkedAdd size (wsub align 1) ≠ none → align*2 < 2^64)
    (hcounts : debug = true → ∀ blockSize B, A.nextBlockFor size align = some (blockSize,B) →
      Block.tryNew sys blockSize align ≠ none →
        A.bytesReserved + blockSize < 2^64 ∧ A.bytesAllocated + size < 2^64) :
    newBlock debug oom misfit sys A size align =
      .ok (ListBuffer.newBlock oom misfit sys A size align) := by
  have hgrowth : minBlockSize ≤ A.nextBlockSize := h.growth_min
  have hlaid : Laid A.blocks := h.laid
  have hlargest : A.largestRemainingIdx < A.blocks.len := h.largest_lt
  unfold newBlock ListBuffer.newBlock
  rw [nextBlockFor_ok hpow htwice, ok_bind]
  cases hn : A.nextBlockFor size align with
  | none => rfl
  | some next =>
    obtain ⟨blockSize,B⟩ := next
    obtain ⟨hfit,n,-,-,rfl⟩ := nextBlockFor_some hgrowth hn
    dsimp only
    cases hnew : Block.tryNew sys blockSize align with
    | none => rfl
    | some b =>
      obtain ⟨-,-,hplaced,hapart,htry⟩ := freshBlock hs hpow hsize hfit hnew
      obtain ⟨hlaid',-⟩ := laid_push hlaid hplaced hapart
      have hroom := fun hdebug => hcounts hdebug blockSize _ hn (by rw [hnew]; nofun)
      dsimp only
      rw [tryAlloc_ok hpow (fresh_top hs hpow hnew), ok_bind, htry]
      dsimp only
      rw [add_ok (fun hdebug => (hroom hdebug).1), ok_bind,
        add_ok (fun hdebug => (hroom hdebug).2), ok_bind]
      cases pushPanic sys A.blocks with
      | some message => rfl
      | none =>
        have hlen : (A.blocks.push { b with offset := size }).len = A.blocks.len+1 :=
          InlineVec.len_push _ _
        have hbound := len_le hlaid'
        dsimp only
        rw [sub_ok (by omega), ok_bind, wsub_eq (by omega) (by omega), setCurrentBlock_ok hlaid'
          (by dsimp only; omega) (by dsimp only; omega), ok_bind]
        rfl

theorem sane_finishSlowPath (h : Wf (mended A)) : Wf (mended A.finishSlowPath) := by
  have hwf := wf_finishSlowPath h
  have heq : (mended A).finishSlowPath =
      { A.finishSlowPath with bytesReserved := totalCapacity A.blocks } := rfl
  rw [heq] at hwf
  rw [mended_eq hwf]
  exact hwf

theorem grants_finishSlowPath (h : Wf (mended A)) (hs : Grants sys A.blocks) :
    Grants sys A.finishSlowPath.blocks := by
  have hgrown : Grown (mended A).blocks (mended A).finishSlowPath.blocks := finishSlowPath_grown h
  intro capacity align base hsys
  obtain ⟨hpos,hdvd,htop,hapart⟩ := hs capacity align base hsys
  refine ⟨hpos,hdvd,htop,?_⟩
  intro i hi
  rw [finishSlowPath_len] at hi
  have hextent : (A.finishSlowPath.blocks.get i).extent = (A.blocks.get i).extent :=
    hgrown.extent_eq i hi
  rw [hextent]
  exact hapart i hi

theorem checkedAdd_align (hpow : PowerOfTwo align) :
    checkedAdd size (wsub align 1) = none ↔ 2^64 ≤ size + (align-1) := by
  have hle := powerOfTwo_le hpow
  rw [wsub_eq (powerOfTwo_pos hpow) (by omega), checkedAdd, ite_eq_right_iff]
  constructor
  · exact fun h => Nat.le_of_not_lt (fun hlt => absurd (h hlt) (Option.some_ne_none _))
  · exact fun h hlt => absurd hlt (Nat.not_lt.mpr h)

/-- The arithmetic of a slow path stays in range. -/
structure InRange (sys : SystemAlloc) (A : Arena) (size align : ℕ) : Prop where
  flushed : A.bytesAllocated + A.curOffset < 2^64
  kept : A.retained size align ≠ none → A.bytesAllocated + A.curOffset + size < 2^64
  doubled : A.retained size align = none → size + (align-1) < 2^64 → align*2 < 2^64
  counted : A.retained size align = none → ∀ blockSize B,
    A.nextBlockFor size align = some (blockSize,B) → Block.tryNew sys blockSize align ≠ none →
      A.bytesReserved + blockSize < 2^64 ∧ A.bytesAllocated + A.curOffset + size < 2^64

theorem slow_ok (h : Wf (mended A)) (hs : Grants sys A.blocks) (hpow : PowerOfTwo align)
    (hsize : size < 2^64) (oom misfit : Ret) (hrange : debug = true → InRange sys A size align) :
    slow debug oom misfit sys A size align =
      .ok (A.slowWith (ListBuffer.newBlock oom misfit sys) size align) := by
  have hfsp := sane_finishSlowPath h
  have hlen := finishSlowPath_len A
  have hbytes : debug = true →
      A.finishSlowPath.bytesAllocated = A.bytesAllocated + A.curOffset :=
    fun hdebug => wadd_eq (hrange hdebug).flushed
  have hlaid : Laid A.finishSlowPath.blocks := hfsp.laid
  have hlargest : A.largestRemainingIdx < A.blocks.len := h.largest_lt
  unfold slow Arena.slowWith
  dsimp only
  rw [finishSlowPath_ok h (fun hdebug => (hrange hdebug).flushed), ok_bind, retained_ok hfsp hpow,
    ok_bind, retained_finishSlowPath]
  cases hfound : A.retained size align with
  | some found =>
    obtain ⟨i,p,delta,b⟩ := found
    have hretained : (mended A).retained size align = some (i,p,delta,b) := hfound
    obtain ⟨hlater,hi,-,-,rfl,hcap,rfl⟩ := retained_some h hpow hsize hretained
    have hi' : i < A.finishSlowPath.blocks.len := by
      rw [hlen]
      exact hi
    have hsame : A.finishSlowPath.blocks.get i = A.blocks.get i :=
      finishSlowPath_get A (Nat.ne_of_gt hlater)
    have hwrite : A.finishSlowPath.blocks.modify i
        (fun _ => { (mended A).blocks.get i with offset := delta }) =
        A.finishSlowPath.blocks.modify i (fun b => { b with offset := delta }) :=
      InlineVec.modify_congr _ (by rw [hsame]; rfl)
    obtain ⟨hlaid',-⟩ := laid_offset hlaid i delta (by rw [hsame]; exact hcap)
    have hkept : debug = true → A.finishSlowPath.bytesAllocated + delta < 2^64 := by
      intro hdebug
      rw [hbytes hdebug]
      exact (hrange hdebug).kept (by rw [hfound]; nofun)
    dsimp only
    rw [add_ok hkept, ok_bind, setBlock_ok hi', ok_bind, hwrite, setCurrentBlock_ok hlaid'
      (by rw [InlineVec.len_modify]; exact hi')
      (by rw [InlineVec.len_modify, hlen]; exact hlargest), ok_bind]
    rfl
  | none =>
    apply newBlock_ok hfsp (grants_finishSlowPath h hs) hpow hsize
    · intro hdebug hsum
      apply (hrange hdebug).doubled hfound
      exact Nat.lt_of_not_le (fun hle => hsum ((checkedAdd_align hpow).mpr hle))
    · intro hdebug blockSize B hn hnew
      rw [nextBlockFor_finishSlowPath] at hn
      obtain ⟨next,hnext,heq⟩ := Option.map_eq_some_iff.mp hn
      obtain ⟨rfl,-⟩ := Prod.mk.inj heq
      rw [hbytes hdebug]
      exact (hrange hdebug).counted hfound next.1 next.2 hnext hnew

theorem rawInnerWith_ok (h : Wf (mended A)) (hpow : PowerOfTwo align)
    {slow overflow : Arena → ℕ → ℕ → Ret × Arena}
    {slow' overflow' : Arena → ℕ → ℕ → Checked (Ret × Arena)}
    (hslow : ¬ Fits A size align → ¬ Overflows A size align →
      slow' A size align = .ok (slow A size align))
    (hoverflow : Overflows A size align → overflow' A size align = .ok (overflow A size align)) :
    rawInnerWith debug slow' overflow' A size align =
      .ok (A.rawInnerWith slow overflow size align) := by
  have hbase : A.curBase ≤ A.curPtr := h.base_le
  have htop : (mended A).curEnd ≤ 2^63 := curEnd_le h
  have hptr : A.curPtr ≤ (mended A).curEnd := h.ptr_le
  unfold rawInnerWith Arena.rawInnerWith
  by_cases hlow : align > minBlockAlign
  · rw [if_pos hlow, if_pos hlow]
    exact hslow (fun hfits => absurd hfits.1 (Nat.not_le.mpr hlow))
      (fun hover => absurd hover.1 (Nat.not_le.mpr hlow))
  · have hsmall : A.curPtr + align < 2^64 := by
      unfold minBlockAlign at hlow
      omega
    obtain ⟨hge,-,-⟩ := alignUp_spec A.curPtr hpow (le_of_lt hsmall)
    rw [if_neg hlow, if_neg hlow, alignUp_ok hpow hsmall, ok_bind]
    dsimp only
    cases hadd : checkedAdd (ArenaBlock.alignUp A.curPtr align) size with
    | none => exact hoverflow ⟨Nat.not_lt.mp hlow,hadd⟩
    | some newEnd =>
      obtain ⟨rfl,-⟩ := checkedAdd_some hadd
      dsimp only
      by_cases hroom : ArenaBlock.alignUp A.curPtr align + size ≤ A.curEnd
      · rw [if_pos hroom, if_pos hroom, sub_ok hge, ok_bind]
        rfl
      · rw [if_neg hroom, if_neg hroom]
        exact hslow (fun hfits => hroom hfits.2) (fun hover => nomatch hadd.symm.trans hover.2)

theorem rawInnerWith_path (h : Wf (mended A)) (hpow : PowerOfTwo align)
    (slow overflow : Arena → ℕ → ℕ → Checked (Ret × Arena)) :
    rawInnerWith debug slow overflow A size align =
      if Fits A size align then
        .ok (.ptr (ArenaBlock.alignUp A.curPtr align),
          { A with curPtr := ArenaBlock.alignUp A.curPtr align + size })
      else if Overflows A size align then overflow A size align
      else slow A size align := by
  have htop : (mended A).curEnd ≤ 2^63 := curEnd_le h
  have hptr : A.curPtr ≤ (mended A).curEnd := h.ptr_le
  change A.curEnd ≤ 2^63 at htop
  unfold rawInnerWith
  by_cases hlow : align > minBlockAlign
  · rw [if_pos hlow, if_neg (fun hfits => absurd hfits.1 (Nat.not_le.mpr hlow)),
      if_neg (fun hover => absurd hover.1 (Nat.not_le.mpr hlow))]
  · have hsmall : A.curPtr + align < 2^64 := by
      unfold minBlockAlign at hlow
      change A.curPtr ≤ A.curEnd at hptr
      omega
    obtain ⟨hge,-,-⟩ := alignUp_spec A.curPtr hpow (le_of_lt hsmall)
    rw [if_neg hlow, alignUp_ok hpow hsmall, ok_bind]
    cases hadd : checkedAdd (ArenaBlock.alignUp A.curPtr align) size with
    | none =>
      have hover : Overflows A size align := ⟨Nat.not_lt.mp hlow,hadd⟩
      rw [if_neg (fits_not_overflows (lt_of_le_of_lt htop (by norm_num)) hover), if_pos hover]
    | some newEnd =>
      obtain ⟨rfl,-⟩ := checkedAdd_some hadd
      have hover : ¬ Overflows A size align := fun hover => nomatch hadd.symm.trans hover.2
      dsimp only
      by_cases hroom : ArenaBlock.alignUp A.curPtr align + size ≤ A.curEnd
      · have hptr' : wadd A.curPtr (wsub (ArenaBlock.alignUp A.curPtr align) A.curPtr) =
            ArenaBlock.alignUp A.curPtr align := by
          rw [wsub_eq hge (by omega), wadd_eq (by omega)]
          omega
        rw [if_pos hroom, if_pos ⟨Nat.not_lt.mp hlow,hroom⟩, sub_ok hge, ok_bind, hptr',
          wadd_eq (by omega)]
        rfl
      · rw [if_neg hroom, if_neg (fun hfits => hroom hfits.2), if_neg hover]

/-- Where its arithmetic is in range, a checked request ends as the unchecked one. -/
theorem rawInner_ok (h : Wf (mended A)) (hs : Grants sys A.blocks) (hpow : PowerOfTwo align)
    (hsize : size < 2^64) (fallible : Bool)
    (hrange : debug = true → ¬ Fits A size align → ¬ (fallible = true ∧ Overflows A size align) →
      InRange sys A size align) :
    rawInner debug fallible sys A size align =
      .ok (ListBuffer.rawInner fallible sys A size align) := by
  have hend : A.curEnd < 2^64 := by
    have htop : (mended A).curEnd ≤ 2^63 := curEnd_le h
    change A.curEnd ≤ 2^63 at htop
    omega
  cases fallible with
  | false =>
    have hslow := fun oom misfit hfits => slow_ok h hs hpow hsize oom misfit
      (fun hdebug => hrange hdebug hfits (fun hh => nomatch hh.1))
    apply rawInnerWith_ok h hpow
    · exact fun hfits _ => hslow _ _ hfits
    · exact fun hover => hslow _ _ (fits_not_overflows hend hover)
  | true =>
    apply rawInnerWith_ok h hpow
    · exact fun hfits hover => slow_ok h hs hpow hsize _ _
        (fun hdebug => hrange hdebug hfits (fun hh => hover hh.2))
    · exact fun _ => rfl

end slow

section sweeps
variable {A : Arena}

theorem rewind_ok (h : Wf (mended A)) (boom : ℕ → ℕ → Bool) {cp : Checkpoint}
    (hcp : Recallable A.blocks cp) : rewind boom A cp = .ok (A.rewind boom cp) := by
  have hcur := sane_current h
  have hlaid : Laid A.blocks := h.laid
  have hlargest : A.largestRemainingIdx < A.blocks.len := h.largest_lt
  obtain ⟨hlaid',-,hlen,-⟩ := rewound_blocks h hcp rfl
  have hset : cp.blockIdx < (ArenaCore.clearOffsets (A.current+1 - (cp.blockIdx+1))
      (cp.blockIdx+1) A.blocks).len := by
    rw [len_clearOffsets]
    exact hcp.idx_lt
  unfold rewind Arena.rewind
  rw [if_pos hcp.idx_lt, if_pos hcp.idx_lt]
  dsimp only
  split
  · rfl
  · rw [clearOffsets_ok _ _ (by have := hcp.idx_lt; omega), ok_bind, setBlock_ok hset, ok_bind,
      setCurrentBlock_ok hlaid' (by rw [InlineVec.len_modify]; exact hset)
        (by rw [InlineVec.len_modify, len_clearOffsets]; exact hlargest), ok_bind]
    rfl

theorem reset_ok (h : Wf (mended A)) (boom : ℕ → ℕ → Bool) :
    reset boom A = .ok (A.reset boom) := by
  have hhigh : A.highWaterMark < A.blocks.len := h.high_lt
  have hlen := len_clearOffsets (A.highWaterMark+1) 0 A.blocks
  unfold reset Arena.reset
  dsimp only
  split
  · rfl
  · rw [clearOffsets_ok _ _ (by omega), ok_bind, getBlock_ok (by omega), ok_bind]
    split
    · rw [largestCapacity_ok _ _ _ _ (by omega), ok_bind]
      rfl
    · rfl

end sweeps

end FastArena.CheckedArena
