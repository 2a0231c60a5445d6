import FastArena.ArenaBlock
import FastArena.InlineStorage

/-!
# The heap buffer of an inline vector

A full vector asks the system allocator for a buffer of twice its capacity, and
panics when it is refused one, before anything is written. The block list and the
drop registry are such vectors.
-/

set_option autoImplicit false

namespace FastArena.HeapBuffer
open FastArena.MachineWord FastArena.ArenaBlock FastArena.InlineStorage

variable {α : Type}

-- `heap_alloc`. Zero bytes are not asked for: they have a dangling pointer.
def heapAlloc (sys : SystemAlloc) (ty : Ty) (cap : ℕ) : Except String ℕ :=
  if layoutFits (cap*ty.size) ty.align then
    if cap*ty.size = 0 then .ok ty.align
    else
      match sys (cap*ty.size) ty.align with
      | none => .error "InlineVec: out of memory"
      | some ptr => .ok ptr
  else .error "InlineVec: layout overflow"

-- `promote_and_push` and `heap_grow`; heap_grow's second layout is that of the old buffer
def doublePanic (sys : SystemAlloc) (ty : Ty) (cap : ℕ) : Option String :=
  match checkedMul cap 2 with
  | none => some "InlineVec: capacity overflow"
  | some newCap =>
    match heapAlloc sys ty newCap with
    | .error message => some message
    | .ok _ => none

def pushPanic (N : ℕ) (sys : SystemAlloc) (ty : Ty) (v : RawVec α) : Option String :=
  if v.onHeap = false ∧ v.len < N then none
  else if v.onHeap then
    if v.len = v.data.asHeap.length then doublePanic sys ty v.data.asHeap.length else none
  else doublePanic sys ty N

section panics
variable {N cap : ℕ} {sys : SystemAlloc} {ty : Ty} {v w : RawVec α} {message : String}

def OwnWords (message : String) : Prop :=
  message = "InlineVec: capacity overflow" ∨ message = "InlineVec: layout overflow" ∨
    message = "InlineVec: out of memory"

theorem heapAlloc_words (h : heapAlloc sys ty cap = .error message) : OwnWords message := by
  unfold heapAlloc at h
  split at h
  · split at h
    · cases h
    · cases hsys : sys (cap*ty.size) ty.align with
      | none =>
        rw [hsys] at h
        cases h
        exact Or.inr (Or.inr rfl)
      | some ptr =>
        rw [hsys] at h
        cases h
  · cases h
    exact Or.inr (Or.inl rfl)

theorem doublePanic_words (h : doublePanic sys ty cap = some message) : OwnWords message := by
  unfold doublePanic at h
  cases hmul : checkedMul cap 2 with
  | none =>
    rw [hmul] at h
    cases h
    exact Or.inl rfl
  | some newCap =>
    rw [hmul] at h
    dsimp only at h
    cases hnew : heapAlloc sys ty newCap with
    | error message' =>
      rw [hnew] at h
      cases h
      exact heapAlloc_words hnew
    | ok ptr =>
      rw [hnew] at h
      cases h

theorem pushPanic_words (h : pushPanic N sys ty v = some message) : OwnWords message := by
  unfold pushPanic at h
  split at h
  · cases h
  · split at h
    · split at h
      · exact doublePanic_words h
      · cases h
    · exact doublePanic_words h

theorem doublePanic_none (h : doublePanic sys ty cap = none) : cap*2 < 2^64 := by
  unfold doublePanic at h
  cases hmul : checkedMul cap 2 with
  | none =>
    rw [hmul] at h
    cases h
  | some n => exact (checkedMul_some hmul).1 ▸ (checkedMul_some hmul).2

theorem pushPanic_congr (hheap : w.onHeap = v.onHeap) (hlen : w.len = v.len)
    (hcells : w.data.asHeap.length = v.data.asHeap.length) :
    pushPanic N sys ty w = pushPanic N sys ty v := by
  unfold pushPanic
  rw [hheap, hlen, hcells]

end panics
end FastArena.HeapBuffer
