import FastArena.MachineWord
import FastArena.ByteSpan
import FastArena.LabelledRun
import FastArena.BumpLedger
import FastArena.InlineStorage
import FastArena.ArenaBlock
import FastArena.DropTracking
import FastArena.ArenaCore
import FastArena.ArenaInvariant
import FastArena.RawRequest
import FastArena.ArenaRequests
import FastArena.ArenaSweep
import FastArena.ArenaTransaction
import FastArena.ArenaWorld
import FastArena.RegionSafety
import FastArena.Accounting
import FastArena.Budget
import FastArena.Rewind
import FastArena.Nesting
import FastArena.DropOrder
import FastArena.DropSafety
import FastArena.GrowableVec
import FastArena.VecGrowth
import FastArena.FailureAtomicity
import FastArena.BoxDrops
import FastArena.RoomCache
import FastArena.BlockReuse
import FastArena.Retry
import FastArena.NestedLimits
import FastArena.HeapBuffer
import FastArena.ListBuffer
import FastArena.CheckedArena
import FastArena.Representation
import FastArena.FallibleCalls
import FastArena.CheckpointOrigin
import FastArena.ElementDrops
import FastArena.FinishedVec
import FastArena.TypedMemory
import FastArena.VecContents
import FastArena.VecRefinement
import FastArena.FullDrain
import FastArena.IterDrop
import FastArena.InlineRefinement
import FastArena.Twins
import FastArena.Ownership
import FastArena.Capacity
import FastArena.ZeroBytes
import FastArena.BlocksTouched
import FastArena.PanickingSweep
import FastArena.LyingIterator
import FastArena.BlockSizing
import FastArena.FastPaths
import FastArena.ObjectStore
import FastArena.ArenaContents
import FastArena.SystemHeap
import FastArena.SystemCalls
import FastArena.ArenaFleet
import FastArena.BlockGrowth
import FastArena.RunningCost
import FastArena.VecCosts
import FastArena.SweepAlgebra
import FastArena.Progress
import FastArena.NextFit
import FastArena.Relocation
import FastArena.RelocatedRuns
import FastArena.PeakLoad
import FastArena.InlineBuffers
import FastArena.VecMacro
import FastArena.RegistryBuffer
import FastArena.ManualDrops
import FastArena.Recovery
import FastArena.SearchCosts
import FastArena.SweepCosts
