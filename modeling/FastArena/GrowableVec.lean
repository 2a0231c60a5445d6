import FastArena.ArenaRequests

/-!
# The growable vector

A vector borrows the arena and keeps a pointer, a length and a capacity. It
grows in place when its end is the bump pointer and the arena's block has room,
and moves to a new region otherwise. Both growth functions multiply and add
without a check on the way in place. What the elements hold is left out.
-/

set_option autoImplicit false

namespace FastArena.GrowableVec
open FastArena.MachineWord FastArena.ByteSpan FastArena.ArenaBlock FastArena.InlineStorage
  FastArena.DropTracking FastArena.ArenaCore FastArena.ArenaInvariant FastArena.RawRequest
  FastArena.ArenaRequests

structure ArenaVec where
  ptr : ℕ
  len : ℕ
  cap : ℕ
  deriving DecidableEq, Repr

inductive TryReserveError where
  | capacityOverflow
  | allocError
  deriving DecidableEq, Repr

inductive VecRes where
  | ok
  | err (e : TryReserveError)
  | returned
  | panic (message : String)
  deriving DecidableEq, Repr

structure VecOutcome where
  vec : ArenaVec
  call : Outcome
  res : VecRes
  grew : Bool

def capacityPanic : String := "ArenaVec: capacity overflow"

-- What the element type's `clone` panics with is its own affair.
def clonePanic : String := "clone panicked"

def overflowRes : Bool → VecRes
  | false => .panic capacityPanic
  | true => .err .capacityOverflow

def enough (v : ArenaVec) (A : Arena) : VecOutcome := ⟨v,answer A .none 0,.ok,true⟩

def refuse (v : ArenaVec) (A : Arena) (res : VecRes) : VecOutcome := ⟨v,answer A .none 0,res,false⟩

-- The new bump pointer when the vector is extended in place. Neither the product nor the sum is
-- checked for overflow.
def extendedEnd (A : Arena) (ty : Ty) (v : ArenaVec) (newCap : ℕ) : Option ℕ :=
  if v.cap > 0 ∧ newCap > v.cap then
    let ourEnd := wadd v.ptr (wmul v.cap ty.size)
    if ourEnd = A.curPtr then
      let extraBytes := wmul (newCap - v.cap) ty.size
      let newEnd := wadd ourEnd extraBytes
      if newEnd ≤ A.curEnd then some newEnd else none
    else none
  else none

def extendInPlace (A : Arena) (newEnd : ℕ) : Outcome :=
  ⟨{ A with curPtr := newEnd },.ptr A.curPtr,some ⟨⟨A.curPtr,wsub newEnd A.curPtr⟩,1⟩,[],0⟩

def growWith (fallible : Bool) (sys : SystemAlloc) (A : Arena) (ty : Ty) (v : ArenaVec)
    (newCap : ℕ) : VecOutcome :=
  if ty.size = 0 then enough { v with cap := newCap } A
  else match extendedEnd A ty v newCap with
  | some newEnd => ⟨{ v with cap := newCap },extendInPlace A newEnd,.ok,true⟩
  | none =>
    match checkedMul newCap ty.size with
    | none => refuse v A (overflowRes fallible)
    | some bytes =>
      let raw := if fallible then tryAllocRaw sys A bytes ty.align else allocRaw sys A bytes ty.align
      match raw.ret with
      | .ptr p => ⟨⟨p,v.len,newCap⟩,raw,.ok,true⟩
      | .none => ⟨v,raw,.err .allocError,false⟩
      | .panic message => ⟨v,raw,.panic message,false⟩

def growTo : SystemAlloc → Arena → Ty → ArenaVec → ℕ → VecOutcome := growWith false

def tryGrowTo : SystemAlloc → Arena → Ty → ArenaVec → ℕ → VecOutcome := growWith true

def doubled (v : ArenaVec) : Option ℕ := if v.cap = 0 then some 4 else checkedMul v.cap 2

section methods
variable (sys : SystemAlloc) (A : Arena) (ty : Ty) (v : ArenaVec)

def growOnceWith (fallible : Bool) : VecOutcome :=
  match doubled v with
  | none => refuse v A (overflowRes fallible)
  | some newCap => growWith fallible sys A ty v newCap

def grow : VecOutcome := growOnceWith sys A ty v false

def tryGrow : VecOutcome := growOnceWith sys A ty v true

def new : ArenaVec := ⟨ty.align,0,0⟩

def withCapacity (cap : ℕ) : VecOutcome :=
  if cap > 0 ∧ ty.size > 0 then growTo sys A ty (new ty) cap
  else if ty.size = 0 then enough { new ty with cap := cap } A
  else enough (new ty) A

def writing (g : VecOutcome) (newLen : ℕ) (unwinds : Option String) : VecOutcome :=
  if g.grew then
    match unwinds with
    | some message => { g with res := .panic message }
    | none => { g with vec := { g.vec with len := newLen } }
  else g

def push : VecOutcome :=
  writing (if v.len = v.cap then grow sys A ty v else enough v A) (wadd v.len 1) none

def tryPush : VecOutcome :=
  let g := if v.len = v.cap then tryGrow sys A ty v else enough v A
  match g.res with
  | .err _ => { g with res := .returned }
  | _ => writing g (wadd v.len 1) none

-- The sum saturates here and is checked in the exact forms.
def reserveWith (fallible : Bool) (additional : ℕ) : VecOutcome :=
  let required := saturatingAdd v.len additional
  if required > v.cap then growWith fallible sys A ty v required else enough v A

def reserve : ℕ → VecOutcome := reserveWith sys A ty v false

def tryReserve : ℕ → VecOutcome := reserveWith sys A ty v true

def reserveExactWith (fallible : Bool) (additional : ℕ) : VecOutcome :=
  match checkedAdd v.len additional with
  | none => refuse v A (overflowRes fallible)
  | some required =>
    if required > v.cap then growWith fallible sys A ty v required else enough v A

def reserveExact : ℕ → VecOutcome := reserveExactWith sys A ty v false

def tryReserveExact : ℕ → VecOutcome := reserveExactWith sys A ty v true

def extendWith (addLen : ℕ) (unwinds : Option String) : VecOutcome :=
  if addLen = 0 then enough v A
  else match checkedAdd v.len addLen with
  | none => refuse v A (overflowRes false)
  | some newLen =>
    writing (if ty.size > 0 ∧ newLen > v.cap then growTo sys A ty v newLen else enough v A) newLen
      unwinds

def extendExact (addLen yields : ℕ) : VecOutcome :=
  extendWith sys A ty v addLen (if yields < addLen then some unwrapPanic else none)

def extendFromSlice (addLen : ℕ) : VecOutcome := extendWith sys A ty v addLen none

def truncate (len : ℕ) : VecOutcome :=
  enough (if len < v.len then { v with len := len } else v) A

def resize (newLen : ℕ) (unwinds : Option String) : VecOutcome :=
  if newLen > v.len then
    writing (if newLen > v.cap then growTo sys A ty v newLen else enough v A) newLen unwinds
  else truncate A v newLen

def pop : VecOutcome := enough (if v.len = 0 then v else { v with len := v.len-1 }) A

def clear : VecOutcome := enough { v with len := 0 } A

end methods

inductive VecOp where
  | push
  | tryPush
  | reserve (additional : ℕ)
  | reserveExact (additional : ℕ)
  | tryReserve (additional : ℕ)
  | tryReserveExact (additional : ℕ)
  | extendExact (addLen yields : ℕ)
  | extendFromSlice (addLen : ℕ)
  | resize (newLen : ℕ) (unwinds : Option String)
  | truncate (len : ℕ)
  | pop
  | clear

def VecOp.apply (sys : SystemAlloc) (A : Arena) (ty : Ty) (v : ArenaVec) : VecOp → VecOutcome
  | .push => GrowableVec.push sys A ty v
  | .tryPush => GrowableVec.tryPush sys A ty v
  | .reserve n => GrowableVec.reserve sys A ty v n
  | .reserveExact n => GrowableVec.reserveExact sys A ty v n
  | .tryReserve n => GrowableVec.tryReserve sys A ty v n
  | .tryReserveExact n => GrowableVec.tryReserveExact sys A ty v n
  | .extendExact n yields => GrowableVec.extendExact sys A ty v n yields
  | .extendFromSlice n => GrowableVec.extendFromSlice sys A ty v n
  | .resize n unwinds => GrowableVec.resize sys A ty v n unwinds
  | .truncate n => GrowableVec.truncate A v n
  | .pop => GrowableVec.pop A v
  | .clear => GrowableVec.clear A v

def VecOp.fallible : VecOp → Bool
  | .tryPush => true
  | .tryReserve _ => true
  | .tryReserveExact _ => true
  | _ => false

def VecOp.Typed (ty : Ty) : VecOp → Prop
  | .reserve n => n < 2^64
  | .reserveExact n => n < 2^64
  | .tryReserve n => n < 2^64
  | .tryReserveExact n => n < 2^64
  | .extendExact n _ => n < 2^64
  | .extendFromSlice n => n < 2^64 ∧ n * ty.size < 2^63
  | .resize n _ => n < 2^64
  | .truncate n => n < 2^64
  | _ => True

/-- Growing makes the room, or fails and leaves the vector as it was. -/
theorem growWith_ends {sys : SystemAlloc} {A : Arena} {ty : Ty} {v : ArenaVec} {n : ℕ}
    (fallible : Bool) {g : VecOutcome} (hg : g = growWith fallible sys A ty v n) :
    (g.grew = true ∧ g.res = .ok ∧ g.vec.len = v.len ∧ g.vec.cap = n) ∨
      (g.grew = false ∧ g.res ≠ .ok ∧ g.vec = v) := by
  subst hg
  unfold growWith
  split
  · exact Or.inl ⟨rfl,rfl,rfl,rfl⟩
  · split
    · exact Or.inl ⟨rfl,rfl,rfl,rfl⟩
    · split
      · refine Or.inr ⟨rfl,?_,rfl⟩
        cases fallible <;> nofun
      · dsimp only
        split
        · exact Or.inl ⟨rfl,rfl,rfl,rfl⟩
        · exact Or.inr ⟨rfl,nofun,rfl⟩
        · exact Or.inr ⟨rfl,nofun,rfl⟩

end FastArena.GrowableVec
