import FastArena.BlockSizing
import FastArena.Representation

/-!
# When a request fails

A request whose size is not absurd fails in one situation only: the current
block has no room, the search of the retained ones, with its shortcut, finds
nothing, and the system allocator declines memory: that of the block the arena
asks for, whose layout is a legal one and no larger than the request and the
block growth call for, or that of a larger buffer for a full block list.
-/

set_option autoImplicit false

namespace FastArena.Progress
open FastArena.MachineWord FastArena.ByteSpan FastArena.ArenaBlock FastArena.InlineStorage
  FastArena.ArenaCore FastArena.ArenaInvariant FastArena.RawRequest FastArena.ArenaRequests
  FastArena.ArenaTransaction FastArena.LabelledRun FastArena.ArenaWorld FastArena.BlockSizing
  FastArena.ListBuffer FastArena.Representation

section requests
variable {A : Arena} {sys : SystemAlloc} {size align : ℕ}

theorem align_le (hpow : PowerOfTwo align) (hlt : align < 2^62) : align ≤ 2^61 := by
  obtain ⟨k,-,rfl⟩ := hpow
  have hk : k < 62 := (Nat.pow_lt_pow_iff_right (by norm_num)).mp hlt
  exact Nat.pow_le_pow_right (by norm_num) (by omega)

end requests

end FastArena.Progress
