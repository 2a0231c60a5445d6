import FastArena.DropTracking

/-!
# The arena

Blocks in a list, a current one with cached pointers, counters, and the drop
registry. A request is served from the current block, else from the first
retained block with room, else from a new block. Rewind and reset move the
position back and keep the blocks. Arithmetic wraps as in a release build.
-/

set_option autoImplicit false

namespace FastArena.ArenaCore
open FastArena.MachineWord FastArena.ArenaBlock FastArena.InlineStorage FastArena.DropTracking

def minBlockSize : ℕ := 64

def maxBlockSize : ℕ := 16*1024*1024

def cacheLineSize : ℕ := 64

abbrev blocksInlineCap : ℕ := 8

instance : NeZero blocksInlineCap := ⟨by decide⟩

abbrev Blocks := InlineVec Block blocksInlineCap

structure Checkpoint where
  blockIdx : ℕ
  offset : ℕ
  bytesAllocated : ℕ
  dropRegistryLen : ℕ
  deriving DecidableEq, Repr

structure ArenaStats where
  bytesAllocated : ℕ
  bytesReserved : ℕ
  blockCount : ℕ
  deriving DecidableEq, Repr

structure Arena where
  blocks : Blocks
  current : ℕ
  nextBlockSize : ℕ
  bytesAllocated : ℕ
  bytesReserved : ℕ
  txnDepth : ℕ
  dropRegistry : DropRegistry
  curBase : ℕ
  curPtr : ℕ
  curEnd : ℕ
  highWaterMark : ℕ
  largestRemaining : ℕ
  largestRemainingIdx : ℕ

inductive Ret where
  | ptr (addr : ℕ)
  | none
  | panic (message : String)
  deriving DecidableEq, Repr

-- `with_capacity`; `none` when it panics for want of memory.
def Arena.withCapacity (sys : SystemAlloc) (feature : Bool) (initialBytes : ℕ) : Option Arena :=
  let size := max initialBytes minBlockSize
  (Block.tryNew sys size minBlockAlign).map fun block =>
    { blocks := InlineVec.new.push block
      current := 0
      nextBlockSize := min (saturatingMul size 2) maxBlockSize
      bytesAllocated := 0
      bytesReserved := size
      txnDepth := 0
      dropRegistry := DropRegistry.new feature
      curBase := block.base
      curPtr := block.base
      curEnd := wadd block.base size
      highWaterMark := 0
      largestRemaining := 0
      largestRemainingIdx := 0 }

def Arena.curOffset (A : Arena) : ℕ := wsub A.curPtr A.curBase

def Arena.checkpoint (A : Arena) : Checkpoint :=
  ⟨A.current,A.curOffset,wadd A.bytesAllocated A.curOffset,A.dropRegistry.len⟩

def Arena.stats (A : Arena) : ArenaStats :=
  ⟨wadd A.bytesAllocated A.curOffset,A.bytesReserved,A.blocks.len⟩

def largestFrom (room : ℕ → ℕ) : ℕ → ℕ → ℕ → ℕ → ℕ × ℕ
  | 0, _, maxRem, maxIdx => (maxRem,maxIdx)
  | n+1, i, maxRem, maxIdx =>
    if room i > maxRem then largestFrom room n (i+1) (room i) i
    else largestFrom room n (i+1) maxRem maxIdx

def Arena.computeLargestRemaining (A : Arena) (fromIdx : ℕ) : Arena :=
  let room := fun i => wsub (A.blocks.get i).capacity (A.blocks.get i).offset
  let best := largestFrom room (A.blocks.len - (fromIdx+1)) (fromIdx+1) 0 fromIdx
  { A with largestRemaining := best.1, largestRemainingIdx := best.2 }

def Arena.setCurrentBlock (A : Arena) (idx : ℕ) : Arena :=
  let block := A.blocks.get idx
  let A := { A with
    current := idx
    highWaterMark := if idx > A.highWaterMark then idx else A.highWaterMark
    curBase := block.base
    curPtr := wadd block.base block.offset
    curEnd := wadd block.base block.capacity }
  if A.largestRemainingIdx ≥ idx+1 then
    let blk := A.blocks.get A.largestRemainingIdx
    { A with largestRemaining := wsub blk.capacity blk.offset }
  else A.computeLargestRemaining idx

-- `next_block_for`; `none` when `size + (align - 1)` overflows and it panics.
def Arena.nextBlockFor (A : Arena) (size align : ℕ) : Option (ℕ × Arena) :=
  (checkedAdd size (wsub align 1)).map fun worst =>
    let wanted := max (max A.nextBlockSize worst) (wmul align 2)
    let rounded :=
      max (max (min ((checkedNextPowerOfTwo wanted).getD (2^64-1)) maxBlockSize) worst)
        (wmul align 2)
    (rounded,{ A with nextBlockSize := min (saturatingAdd rounded (rounded/2)) maxBlockSize })

def Arena.finishSlowPath (A : Arena) : Arena :=
  { A with
    bytesAllocated := wadd A.bytesAllocated A.curOffset
    blocks := A.blocks.modify A.current (fun b => { b with offset := A.curOffset }) }

def Arena.newBlockWith (oom misfit : Ret) (sys : SystemAlloc) (A : Arena) (size align : ℕ) :
    Ret × Arena :=
  match A.nextBlockFor size align with
  | none => (.panic "allocation size overflow",A)
  | some (blockSize,A) =>
    match Block.tryNew sys blockSize align with
    | none => (oom,A)
    | some block =>
      match block.tryAlloc size align with
      | none => (misfit,A)
      | some (p,delta,block) =>
        let A := { A with
          bytesReserved := wadd A.bytesReserved blockSize
          bytesAllocated := wadd A.bytesAllocated delta
          blocks := A.blocks.push block }
        (.ptr p,A.setCurrentBlock (A.blocks.len-1))

def Arena.allocNewBlock : SystemAlloc → Arena → ℕ → ℕ → Ret × Arena :=
  Arena.newBlockWith (.panic "arena: out of memory") (.panic "fresh block must satisfy request")

def Arena.tryAllocNewBlock : SystemAlloc → Arena → ℕ → ℕ → Ret × Arena :=
  Arena.newBlockWith .none .none

def firstFit (blocks : Blocks) (size align : ℕ) : ℕ → ℕ → Option (ℕ × ℕ × ℕ × Block)
  | 0, _ => none
  | n+1, i =>
    if (blocks.get i).align ≥ align then
      match (blocks.get i).tryAlloc size align with
      | some (p,delta,block) => some (i,p,delta,block)
      | none => firstFit blocks size align n (i+1)
    else firstFit blocks size align n (i+1)

def Arena.retained (A : Arena) (size align : ℕ) : Option (ℕ × ℕ × ℕ × Block) :=
  if align > minBlockAlign then none
  else if size ≤ A.largestRemaining then
    firstFit A.blocks size align (A.blocks.len - (A.current+1)) (A.current+1)
  else none

def Arena.slowWith (newBlock : Arena → ℕ → ℕ → Ret × Arena) (A : Arena) (size align : ℕ) :
    Ret × Arena :=
  let A := A.finishSlowPath
  match A.retained size align with
  | some (i,p,delta,block) =>
    let A := { A with
      bytesAllocated := wadd A.bytesAllocated delta
      blocks := A.blocks.modify i (fun _ => block) }
    (.ptr p,A.setCurrentBlock i)
  | none => newBlock A size align

def Arena.allocSlow (sys : SystemAlloc) : Arena → ℕ → ℕ → Ret × Arena :=
  Arena.slowWith (Arena.allocNewBlock sys)

def Arena.allocSlowTry (sys : SystemAlloc) : Arena → ℕ → ℕ → Ret × Arena :=
  Arena.slowWith (Arena.tryAllocNewBlock sys)

def Arena.rawInnerWith (slow overflow : Arena → ℕ → ℕ → Ret × Arena) (A : Arena)
    (size align : ℕ) : Ret × Arena :=
  if align > minBlockAlign then slow A size align
  else
    let aligned := alignUp A.curPtr align
    match checkedAdd aligned size with
    | none => overflow A size align
    | some newEnd =>
      if newEnd ≤ A.curEnd then
        let alignedPtr := wadd A.curPtr (wsub aligned A.curPtr)
        (.ptr alignedPtr,{ A with curPtr := wadd alignedPtr size })
      else slow A size align

def Arena.allocRawInner (sys : SystemAlloc) : Arena → ℕ → ℕ → Ret × Arena :=
  Arena.rawInnerWith (Arena.allocSlow sys) (Arena.allocSlow sys)

def Arena.tryAllocRawInner (sys : SystemAlloc) : Arena → ℕ → ℕ → Ret × Arena :=
  Arena.rawInnerWith (Arena.allocSlowTry sys) (fun A _ _ => (.none,A))

def Arena.rawInner : Bool → SystemAlloc → Arena → ℕ → ℕ → Ret × Arena
  | false => Arena.allocRawInner
  | true => Arena.tryAllocRawInner

def clearOffsets : ℕ → ℕ → Blocks → Blocks
  | 0, _, blocks => blocks
  | n+1, i, blocks => clearOffsets n (i+1) (blocks.modify i (fun b => { b with offset := 0 }))

structure Swept where
  calls : List DropCall
  arena : Arena
  panic : Option String

def dropPanic : String := "DropRegistry: destructor panicked"

def Arena.rewind (boom : ℕ → ℕ → Bool) (A : Arena) (cp : Checkpoint) : Swept :=
  if cp.blockIdx < A.blocks.len then
    let dropped := A.dropRegistry.runDropsUntil boom cp.dropRegistryLen
    let A := { A with dropRegistry := dropped.2.1 }
    if dropped.2.2 then ⟨dropped.1,A,some dropPanic⟩
    else
      let blocks := clearOffsets (A.current+1 - (cp.blockIdx+1)) (cp.blockIdx+1) A.blocks
      let A := { A with
        blocks := blocks.modify cp.blockIdx (fun b => { b with offset := cp.offset })
        bytesAllocated := wsub cp.bytesAllocated cp.offset }
      ⟨dropped.1,A.setCurrentBlock cp.blockIdx,none⟩
  else
    ⟨[],A,some s!"rewind: checkpoint block_idx {cp.blockIdx} out of range (arena has {A.blocks.len} blocks)"⟩

def Arena.reset (boom : ℕ → ℕ → Bool) (A : Arena) : Swept :=
  let dropped := A.dropRegistry.runAllDrops boom
  let A := { A with dropRegistry := dropped.2.1 }
  if dropped.2.2 then ⟨dropped.1,A,some dropPanic⟩
  else
    let blocks := clearOffsets (A.highWaterMark+1) 0 A.blocks
    let b0 := blocks.get 0
    let best :=
      if blocks.len > 1 then largestFrom (fun i => (blocks.get i).capacity) (blocks.len-1) 1 0 0
      else (0,0)
    ⟨dropped.1,{ A with
      blocks := blocks
      highWaterMark := 0
      bytesAllocated := 0
      current := 0
      curBase := b0.base
      curPtr := b0.base
      curEnd := wadd b0.base b0.capacity
      largestRemaining := best.1
      largestRemainingIdx := best.2 },none⟩

end FastArena.ArenaCore
