import FastArena.ArenaSweep
import FastArena.ArenaRequests

/-!
# Transactions

A transaction is a guard over the arena: the checkpoint taken when it opened,
its depth, and a byte limit. Its allocating methods check the limit and hand
the request on. Dropping the guard rewinds, committing does not.
-/

set_option autoImplicit false

namespace FastArena.ArenaTransaction
open FastArena.MachineWord FastArena.ByteSpan FastArena.ArenaBlock FastArena.InlineStorage
  FastArena.DropTracking FastArena.ArenaCore FastArena.ArenaInvariant FastArena.RawRequest
  FastArena.ArenaSweep FastArena.ArenaRequests

structure Transaction where
  checkpoint : Checkpoint
  committed : Bool
  bytesAtOpen : ℕ
  blockAtOpen : ℕ
  depth : ℕ
  limit : Option ℕ

structure TxnDiff where
  bytesAllocated : ℕ
  blocksTouched : ℕ
  deriving DecidableEq, Repr

namespace Transaction

def new (A : Arena) : Transaction × Arena :=
  let checkpoint := A.checkpoint
  let A := { A with txnDepth := wadd A.txnDepth 1 }
  (⟨checkpoint,false,checkpoint.bytesAllocated,checkpoint.blockIdx,A.txnDepth,none⟩,A)

def commit (A : Arena) : Arena := { A with txnDepth := wsub A.txnDepth 1 }

def drop (boom : ℕ → ℕ → Bool) (t : Transaction) (A : Arena) : Swept :=
  let A := { A with txnDepth := A.txnDepth-1 }
  if t.committed then ⟨[],A,none⟩ else A.rewind boom t.checkpoint

def setLimit (t : Transaction) (bytes : ℕ) : Transaction := { t with limit := some bytes }

def bytesUsed (t : Transaction) (A : Arena) : ℕ :=
  wadd A.bytesAllocated A.curOffset - t.bytesAtOpen

def budgetRemaining (t : Transaction) (A : Arena) : Option ℕ :=
  t.limit.map (· - t.bytesUsed A)

def budgetOk (t : Transaction) (A : Arena) (additional : ℕ) : Bool :=
  match t.limit with
  | none => true
  | some lim => decide (saturatingAdd (t.bytesUsed A) additional ≤ lim)

def budgetPanic (t : Transaction) (A : Arena) (n : ℕ) : String :=
  let limit := t.limit.getD 0
  let used := t.bytesUsed A
  s!"arena transaction budget exceeded: limit={limit}, used={used}, requested={n}"

def diff (t : Transaction) (A : Arena) : TxnDiff :=
  ⟨t.bytesUsed A,A.current - t.blockAtOpen + 1⟩

def guarded (t : Transaction) (A : Arena) (fallible : Bool) (payload lost : ℕ) (call : Outcome) :
    Outcome :=
  if t.budgetOk A payload then call
  else answer A (if fallible then .none else .panic (t.budgetPanic A payload)) lost

variable (t : Transaction) (sys : SystemAlloc) (A : Arena)

def alloc (ty : Ty) : Outcome :=
  t.guarded A false ty.size (dropGlue ty) (ArenaRequests.alloc sys A ty)

def tryAlloc (ty : Ty) : Outcome :=
  t.guarded A true ty.size (dropGlue ty) (ArenaRequests.tryAlloc sys A ty)

-- One length: the guard and the arena each call `iter.len()`, and the iterator answers both alike.
def allocSlice (ty : Ty) (len yields : ℕ) : Outcome :=
  t.guarded A false (saturatingMul ty.size len) 0 (ArenaRequests.allocSlice sys A ty len yields)

def tryAllocSlice (ty : Ty) (len yields : ℕ) : Outcome :=
  t.guarded A true (saturatingMul ty.size len) 0 (ArenaRequests.tryAllocSlice sys A ty len yields)

def allocSliceCopy (ty : Ty) (len : ℕ) : Outcome :=
  t.guarded A false (saturatingMul ty.size len) 0 (ArenaRequests.allocSliceCopy sys A ty len)

def tryAllocSliceCopy (ty : Ty) (len : ℕ) : Outcome :=
  t.guarded A true (saturatingMul ty.size len) 0 (ArenaRequests.tryAllocSliceCopy sys A ty len)

def allocStr (len : ℕ) : Outcome :=
  t.guarded A false len 0 (ArenaRequests.allocStr sys A len)

def tryAllocStr (len : ℕ) : Outcome :=
  t.guarded A true len 0 (ArenaRequests.tryAllocStr sys A len)

def allocUninit (ty : Ty) : Outcome :=
  t.guarded A false ty.size 0 (ArenaRequests.allocUninit sys A ty)

def allocRaw (size align : ℕ) : Outcome :=
  t.guarded A false size 0 (ArenaRequests.allocRaw sys A size align)

def tryAllocRaw (size align : ℕ) : Outcome :=
  t.guarded A true size 0 (ArenaRequests.tryAllocRaw sys A size align)

def allocZeroed (size align : ℕ) : Outcome :=
  t.guarded A false size 0 (ArenaRequests.allocZeroed sys A size align)

def allocCacheAligned (size : ℕ) : Outcome :=
  t.guarded A false size 0 (ArenaRequests.allocRaw sys A size cacheLineSize)

def tryAllocCacheAligned (size : ℕ) : Outcome :=
  t.guarded A true size 0 (ArenaRequests.tryAllocRaw sys A size cacheLineSize)

-- The call of a method of the guard; it has no `try_alloc_zeroed`.
def serve : Request → Outcome
  | ⟨.value ty,false⟩ => t.alloc sys A ty
  | ⟨.value ty,true⟩ => t.tryAlloc sys A ty
  | ⟨.slice ty len yields,false⟩ => t.allocSlice sys A ty len yields
  | ⟨.slice ty len yields,true⟩ => t.tryAllocSlice sys A ty len yields
  | ⟨.sliceCopy ty len,false⟩ => t.allocSliceCopy sys A ty len
  | ⟨.sliceCopy ty len,true⟩ => t.tryAllocSliceCopy sys A ty len
  | ⟨.str len,false⟩ => t.allocStr sys A len
  | ⟨.str len,true⟩ => t.tryAllocStr sys A len
  | ⟨.uninit ty,_⟩ => t.allocUninit sys A ty
  | ⟨.raw size align,false⟩ => t.allocRaw sys A size align
  | ⟨.raw size align,true⟩ => t.tryAllocRaw sys A size align
  | ⟨.zeroed size align,false⟩ => t.allocZeroed sys A size align
  | ⟨.zeroed _ _,true⟩ => answer A .none 0
  | ⟨.cacheAligned size,false⟩ => t.allocCacheAligned sys A size
  | ⟨.cacheAligned size,true⟩ => t.tryAllocCacheAligned sys A size

end Transaction

def payload : Kind → ℕ
  | .value ty => ty.size
  | .slice ty len _ => saturatingMul ty.size len
  | .sliceCopy ty len => saturatingMul ty.size len
  | .str len => len
  | .uninit ty => ty.size
  | .raw size _ => size
  | .zeroed size _ => size
  | .cacheAligned size => size

def offered : Request → Bool
  | ⟨.zeroed _ _,true⟩ => false
  | _ => true

/-- A request passed by the guard is the arena's own; one it stops changes nothing. -/
theorem txn_serve (t : Transaction) (sys : SystemAlloc) (A : Arena) (r : Request) :
    ((offered r = true ∧ t.budgetOk A (payload r.kind) = true) ∧
        t.serve sys A r = r.serve sys A) ∨
      ¬ (offered r = true ∧ t.budgetOk A (payload r.kind) = true) ∧
        ∃ ret, (∀ p, ret ≠ .ptr p) ∧ ∃ lost, t.serve sys A r = answer A ret lost := by
  have hguarded : ∀ fallible n lost call, (t.budgetOk A n = true ∧
      t.guarded A fallible n lost call = call) ∨ t.budgetOk A n = false ∧
        ∃ ret, (∀ p, ret ≠ .ptr p) ∧ ∃ lost', t.guarded A fallible n lost call =
          answer A ret lost' := by
    intro fallible n lost call
    cases hok : t.budgetOk A n with
    | true => exact Or.inl ⟨rfl,by rw [Transaction.guarded, hok]; rfl⟩
    | false =>
      refine Or.inr ⟨rfl,_,?_,lost,by rw [Transaction.guarded, hok]; rfl⟩
      cases fallible <;> nofun
  have hcall : ∀ fallible n lost call, (offered r = true ∧ payload r.kind = n) →
      t.serve sys A r = t.guarded A fallible n lost call → call = r.serve sys A →
      ((offered r = true ∧ t.budgetOk A (payload r.kind) = true) ∧
          t.serve sys A r = r.serve sys A) ∨
        ¬ (offered r = true ∧ t.budgetOk A (payload r.kind) = true) ∧
          ∃ ret, (∀ p, ret ≠ .ptr p) ∧ ∃ lost, t.serve sys A r = answer A ret lost := by
    rintro fallible n lost call ⟨hoffered,rfl⟩ heq rfl
    rw [heq]
    rcases hguarded fallible (payload r.kind) lost (r.serve sys A) with ⟨hok,hpass⟩ | ⟨hno,hstop⟩
    · exact Or.inl ⟨⟨hoffered,hok⟩,hpass⟩
    · exact Or.inr ⟨fun hh => Bool.false_ne_true (hno.symm.trans hh.2),hstop⟩
  obtain ⟨kind,fallible⟩ := r
  cases kind <;> cases fallible <;>
    first
      | exact hcall _ _ _ _ ⟨rfl,rfl⟩ rfl rfl
      | exact Or.inr ⟨fun hh => Bool.false_ne_true hh.1,.none,nofun,0,rfl⟩

theorem txn_served {A : Arena} (h : Wf A) {sys : SystemAlloc} (hs : Grants sys A.blocks)
    {r : Request} (hr : r.Typed) (t : Transaction) :
    Served sys A r (t.serve sys A r) ∨
      ∃ ret, (∀ p, ret ≠ .ptr p) ∧ ∃ lost, t.serve sys A r = answer A ret lost := by
  rcases txn_serve t sys A r with ⟨-,heq⟩ | ⟨-,hstop⟩
  · rw [heq]
    exact Or.inl (serve_served h hs hr)
  · exact Or.inr hstop

theorem wf_txnDepth {A : Arena} (h : Wf A) (n : ℕ) : Wf { A with txnDepth := n } :=
  { h with }

end FastArena.ArenaTransaction
