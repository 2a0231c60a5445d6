import FastArena.RawRequest

/-!
# The allocating methods

Every public allocating method and its fallible twin. A method answers some
requests at once, asks the raw allocator for bytes otherwise, and then fills
the region it got and registers what has to be destroyed. All of them have this
one shape, which is what later modules use.
-/

set_option autoImplicit false

namespace FastArena.ArenaRequests
open FastArena.MachineWord FastArena.ByteSpan FastArena.ArenaBlock FastArena.InlineStorage
  FastArena.DropTracking FastArena.ArenaCore FastArena.ArenaInvariant FastArena.RawRequest

structure Region where
  span : Span
  align : ℕ
  deriving DecidableEq, Repr

/-- What a call did: the bytes it took and the bytes it wrote, what it answered, and how often
the destructor of the value passed in ran before it returned. -/
structure Outcome where
  arena : Arena
  ret : Ret
  carved : Option Region
  wrote : List Span
  valueDrops : ℕ

def answer (A : Arena) (ret : Ret) (valueDrops : ℕ) : Outcome := ⟨A,ret,none,[],valueDrops⟩

def onRaw (r : Ret × Arena) (size align lost : ℕ) (filled : ℕ → Arena → Outcome) : Outcome :=
  match r with
  | (.ptr p,A) => { filled p A with carved := some ⟨⟨p,size⟩,align⟩ }
  | (ret,A) => answer A ret lost

def dropGlue (ty : Ty) : ℕ := if ty.needsDrop then 1 else 0

def unwrapPanic : String := "called `Option::unwrap()` on a `None` value"

def alignPanic : String := "align must be a power of two"

def placeValue (ty : Ty) (p : ℕ) (A : Arena) : Outcome :=
  ⟨{ A with dropRegistry := A.dropRegistry.register ty p },.ptr p,none,[⟨p,ty.size⟩],0⟩

-- A value of size zero is not stored: it goes out of scope when the method returns.
def allocWith (fallible : Bool) (sys : SystemAlloc) (A : Arena) (ty : Ty) : Outcome :=
  if ty.size = 0 then answer A (.ptr ty.align) (dropGlue ty)
  else onRaw (A.rawInner fallible sys ty.size ty.align) ty.size ty.align (dropGlue ty)
    (placeValue ty)

def alloc : SystemAlloc → Arena → Ty → Outcome := allocWith false

def tryAlloc : SystemAlloc → Arena → Ty → Outcome := allocWith true

def placeElements (ty : Ty) (len yields p : ℕ) (A : Arena) : Outcome :=
  if yields < len then ⟨A,.panic unwrapPanic,none,[⟨p,yields * ty.size⟩],0⟩
  else ⟨{ A with dropRegistry := A.dropRegistry.registerSlice ty p len },.ptr p,none,
    [⟨p,len * ty.size⟩],0⟩

def allocSliceWith (fallible : Bool) (overflow : Ret) (sys : SystemAlloc) (A : Arena) (ty : Ty)
    (len : ℕ) (filled : ℕ → Arena → Outcome) : Outcome :=
  if len = 0 then answer A (.ptr ty.align) 0
  else match checkedMul ty.size len with
    | none => answer A overflow 0
    | some total => onRaw (A.rawInner fallible sys total ty.align) total ty.align 0 filled

def allocSlice (sys : SystemAlloc) (A : Arena) (ty : Ty) (len yields : ℕ) : Outcome :=
  allocSliceWith false (.panic "overflow") sys A ty len (placeElements ty len yields)

def tryAllocSlice (sys : SystemAlloc) (A : Arena) (ty : Ty) (len yields : ℕ) : Outcome :=
  allocSliceWith true .none sys A ty len (placeElements ty len yields)

def allocSliceCopy (sys : SystemAlloc) (A : Arena) (ty : Ty) (len : ℕ) : Outcome :=
  allocSliceWith false (.panic "overflow") sys A ty len (placeElements ty len len)

def tryAllocSliceCopy (sys : SystemAlloc) (A : Arena) (ty : Ty) (len : ℕ) : Outcome :=
  allocSliceWith true .none sys A ty len (placeElements ty len len)

def placeBytes (size p : ℕ) (A : Arena) : Outcome := ⟨A,.ptr p,none,[⟨p,size⟩],0⟩

def placeNothing (p : ℕ) (A : Arena) : Outcome := ⟨A,.ptr p,none,[],0⟩

def allocSlowStr (sys : SystemAlloc) (A : Arena) (len : ℕ) : Outcome :=
  onRaw (A.allocRawInner sys len 1) len 1 0 (placeBytes len)

def tryAllocSlowStr (sys : SystemAlloc) (A : Arena) (len : ℕ) : Outcome :=
  onRaw (A.tryAllocRawInner sys len 1) len 1 0 (placeBytes len)

-- The string's own bump path, whose sum is not checked for overflow.
def allocStr (sys : SystemAlloc) (A : Arena) (len : ℕ) : Outcome :=
  if len = 0 then answer A (.ptr 1) 0
  else
    let newEnd := wadd A.curPtr len
    if newEnd ≤ A.curEnd then
      ⟨{ A with curPtr := wadd A.curPtr len },.ptr A.curPtr,some ⟨⟨A.curPtr,len⟩,1⟩,
        [⟨A.curPtr,len⟩],0⟩
    else allocSlowStr sys A len

def tryAllocStr (sys : SystemAlloc) (A : Arena) (len : ℕ) : Outcome :=
  if len = 0 then answer A (.ptr 1) 0
  else match checkedAdd A.curPtr len with
    | none => answer A .none 0
    | some newEnd =>
      if newEnd ≤ A.curEnd then
        ⟨{ A with curPtr := wadd A.curPtr len },.ptr A.curPtr,some ⟨⟨A.curPtr,len⟩,1⟩,
          [⟨A.curPtr,len⟩],0⟩
      else tryAllocSlowStr sys A len

def allocUninit (sys : SystemAlloc) (A : Arena) (ty : Ty) : Outcome :=
  if ty.size = 0 then answer A (.ptr ty.align) 0
  else onRaw (A.allocRawInner sys ty.size ty.align) ty.size ty.align 0 placeNothing

def allocRawWith (fallible : Bool) (sys : SystemAlloc) (A : Arena) (size align : ℕ)
    (filled : ℕ → Arena → Outcome) : Outcome :=
  if PowerOfTwo align then
    if size = 0 then answer A (.ptr 1) 0
    else onRaw (A.rawInner fallible sys size align) size align 0 filled
  else answer A (.panic alignPanic) 0

def allocRaw (sys : SystemAlloc) (A : Arena) (size align : ℕ) : Outcome :=
  allocRawWith false sys A size align placeNothing

def tryAllocRaw (sys : SystemAlloc) (A : Arena) (size align : ℕ) : Outcome :=
  allocRawWith true sys A size align placeNothing

-- An empty request is answered before the alignment is looked at, unlike in the fallible twin.
def allocZeroed (sys : SystemAlloc) (A : Arena) (size align : ℕ) : Outcome :=
  if size = 0 then answer A (.ptr 1) 0
  else allocRawWith false sys A size align (placeBytes size)

def tryAllocZeroed (sys : SystemAlloc) (A : Arena) (size align : ℕ) : Outcome :=
  allocRawWith true sys A size align (placeBytes size)

def allocCacheAligned (sys : SystemAlloc) (A : Arena) (size : ℕ) : Outcome :=
  allocRaw sys A size cacheLineSize

def tryAllocCacheAligned (sys : SystemAlloc) (A : Arena) (size : ℕ) : Outcome :=
  tryAllocRaw sys A size cacheLineSize

inductive Kind where
  | value (ty : Ty)
  | slice (ty : Ty) (len yields : ℕ)
  | sliceCopy (ty : Ty) (len : ℕ)
  | str (len : ℕ)
  | uninit (ty : Ty)
  | raw (size align : ℕ)
  | zeroed (size align : ℕ)
  | cacheAligned (size : ℕ)

structure Request where
  kind : Kind
  fallible : Bool

def Request.serve (sys : SystemAlloc) (A : Arena) : Request → Outcome
  | ⟨.value ty,false⟩ => alloc sys A ty
  | ⟨.value ty,true⟩ => tryAlloc sys A ty
  | ⟨.slice ty len yields,false⟩ => allocSlice sys A ty len yields
  | ⟨.slice ty len yields,true⟩ => tryAllocSlice sys A ty len yields
  | ⟨.sliceCopy ty len,false⟩ => allocSliceCopy sys A ty len
  | ⟨.sliceCopy ty len,true⟩ => tryAllocSliceCopy sys A ty len
  | ⟨.str len,false⟩ => allocStr sys A len
  | ⟨.str len,true⟩ => tryAllocStr sys A len
  | ⟨.uninit ty,_⟩ => allocUninit sys A ty
  | ⟨.raw size align,false⟩ => allocRaw sys A size align
  | ⟨.raw size align,true⟩ => tryAllocRaw sys A size align
  | ⟨.zeroed size align,false⟩ => allocZeroed sys A size align
  | ⟨.zeroed size align,true⟩ => tryAllocZeroed sys A size align
  | ⟨.cacheAligned size,false⟩ => allocCacheAligned sys A size
  | ⟨.cacheAligned size,true⟩ => tryAllocCacheAligned sys A size

abbrev Ask := SystemAlloc × Request

def served (A : Arena) (c : Ask) : Arena := (c.2.serve c.1 A).arena

def answers : Arena → List Ask → List Ret
  | _, [] => []
  | A, c::cs => (c.2.serve c.1 A).ret :: answers (served A c) cs

def Request.Typed : Request → Prop
  | ⟨.slice _ len _,_⟩ => len < 2^64
  | ⟨.sliceCopy _ len,_⟩ => len < 2^64
  | ⟨.str len,_⟩ => len < 2^63
  | ⟨.uninit _,fallible⟩ => fallible = false
  | ⟨.raw size _,_⟩ => size < 2^64
  | ⟨.zeroed size _,_⟩ => size < 2^64
  | ⟨.cacheAligned size,_⟩ => size < 2^64
  | ⟨.value _,_⟩ => True

def sliceDemand (ty : Ty) (len : ℕ) : Option (ℕ × ℕ) :=
  if len = 0 then none else (checkedMul ty.size len).map (·,ty.align)

def Kind.demand : Kind → Option (ℕ × ℕ)
  | .value ty => if ty.size = 0 then none else some (ty.size,ty.align)
  | .slice ty len _ => sliceDemand ty len
  | .sliceCopy ty len => sliceDemand ty len
  | .str len => if len = 0 then none else some (len,1)
  | .uninit ty => if ty.size = 0 then none else some (ty.size,ty.align)
  | .raw size align => if PowerOfTwo align ∧ size ≠ 0 then some (size,align) else none
  | .zeroed size align => if PowerOfTwo align ∧ size ≠ 0 then some (size,align) else none
  | .cacheAligned size => if size ≠ 0 then some (size,cacheLineSize) else none

def Kind.filled : Kind → ℕ → Arena → Outcome
  | .value ty => placeValue ty
  | .slice ty len yields => placeElements ty len yields
  | .sliceCopy ty len => placeElements ty len len
  | .str len => placeBytes len
  | .uninit _ => placeNothing
  | .raw _ _ => placeNothing
  | .zeroed size _ => placeBytes size
  | .cacheAligned _ => placeNothing

def Kind.lost : Kind → ℕ
  | .value ty => dropGlue ty
  | _ => 0

def Kind.owed : Kind → ℕ → List DropSlot
  | .value ty, p => if ty.needsDrop then [.single p ty] else []
  | .slice ty len yields, p =>
    if len ≤ yields ∧ ty.needsDrop ∧ len ≠ 0 then [.range p len ty] else []
  | .sliceCopy ty len, p => if ty.needsDrop ∧ len ≠ 0 then [.range p len ty] else []
  | _, _ => []

def Kind.Complete : Kind → Prop
  | .slice _ len yields => len ≤ yields
  | _ => True

instance (k : Kind) : Decidable k.Complete := by
  cases k <;> unfold Kind.Complete <;> infer_instance

def Kind.reply (k : Kind) (p : ℕ) : Ret := if k.Complete then .ptr p else .panic unwrapPanic

section served
variable {A : Arena} {sys : SystemAlloc} {k : Kind} {size align p : ℕ}

theorem ty_size_lt (ty : Ty) : ty.size < 2^64 := ty.size_lt.trans (by norm_num)

theorem demand_if {c : Prop} [Decidable c] {n a : ℕ}
    (hd : (if c then some (n,a) else none) = some (size,align)) : c ∧ n = size ∧ a = align := by
  simpa only [Option.ite_none_right_eq_some, Option.some.injEq, Prod.mk.injEq] using hd

theorem demand_raw (hpow : PowerOfTwo align) (hsize : size ≠ 0) :
    (Kind.raw size align).demand = some (size,align) := by
  rw [Kind.demand, if_pos ⟨hpow,hsize⟩]

theorem demand_unless {c : Prop} [Decidable c] {n a : ℕ}
    (hd : (if c then none else some (n,a)) = some (size,align)) : ¬ c ∧ n = size ∧ a = align := by
  simpa only [Option.ite_none_left_eq_some, Option.some.injEq, Prod.mk.injEq] using hd

theorem demand_unique {size' align' : ℕ} (hd : k.demand = some (size,align))
    (hd' : k.demand = some (size',align')) : size = size' ∧ align = align' :=
  Prod.mk.inj (Option.some.inj (hd.symm.trans hd'))

theorem demand_each {ok : ℕ → ℕ → Prop} (hd : k.demand = some (size,align)) :
    (∀ n a, k.demand = some (n,a) → ok n a) ↔ ok size align := by
  refine ⟨fun h => h size align hd,fun h n a hd' => ?_⟩
  obtain ⟨rfl,rfl⟩ := demand_unique hd hd'
  exact h

theorem sliceDemand_some {ty : Ty} {len : ℕ} (hd : sliceDemand ty len = some (size,align)) :
    len ≠ 0 ∧ size = len * ty.size ∧ align = ty.align ∧ size < 2^64 := by
  simp only [sliceDemand, Option.ite_none_left_eq_some, Option.map_eq_some_iff,
    Prod.mk.injEq] at hd
  obtain ⟨hne,total,htotal,rfl,rfl⟩ := hd
  obtain ⟨rfl,hlt⟩ := checkedMul_some htotal
  exact ⟨hne,Nat.mul_comm _ _,rfl,hlt⟩

theorem demand_typed {r : Request} (hr : r.Typed) (hd : r.kind.demand = some (size,align)) :
    PowerOfTwo align ∧ size < 2^64 := by
  obtain ⟨kind,fallible⟩ := r
  cases kind with
  | value ty =>
    obtain ⟨-,rfl,rfl⟩ := demand_unless hd
    exact ⟨ty.align_pow,ty_size_lt ty⟩
  | slice ty len yields =>
    obtain ⟨-,-,rfl,hlt⟩ := sliceDemand_some hd
    exact ⟨ty.align_pow,hlt⟩
  | sliceCopy ty len =>
    obtain ⟨-,-,rfl,hlt⟩ := sliceDemand_some hd
    exact ⟨ty.align_pow,hlt⟩
  | str len =>
    obtain ⟨-,rfl,rfl⟩ := demand_unless hd
    exact ⟨powerOfTwo_one,lt_trans hr (by norm_num)⟩
  | uninit ty =>
    obtain ⟨-,rfl,rfl⟩ := demand_unless hd
    exact ⟨ty.align_pow,ty_size_lt ty⟩
  | raw size' align' =>
    obtain ⟨⟨hpow,-⟩,rfl,rfl⟩ := demand_if hd
    exact ⟨hpow,hr⟩
  | zeroed size' align' =>
    obtain ⟨⟨hpow,-⟩,rfl,rfl⟩ := demand_if hd
    exact ⟨hpow,hr⟩
  | cacheAligned size' =>
    obtain ⟨-,rfl,rfl⟩ := demand_if hd
    exact ⟨minBlockAlign_pow,hr⟩

theorem str_fits (h : Anchored A) {len : ℕ} : Fits A len 1 ↔ A.curPtr + len ≤ A.curEnd := by
  have htop : A.curEnd ≤ 2^63 := anchored_end h
  have hptr := h.ptr_le
  have hup : alignUp A.curPtr 1 = A.curPtr := alignUp_one (by omega)
  unfold Fits
  rw [hup]
  exact and_iff_right (by norm_num [minBlockAlign])

theorem str_bump (h : Anchored A) (sys : SystemAlloc) (fallible : Bool) {len : ℕ}
    (hroom : A.curPtr + len ≤ A.curEnd) :
    onRaw (A.rawInner fallible sys len 1) len 1 0 (placeBytes len) =
      ⟨{ A with curPtr := A.curPtr + len },.ptr A.curPtr,some ⟨⟨A.curPtr,len⟩,1⟩,
        [⟨A.curPtr,len⟩],0⟩ := by
  have htop : A.curEnd ≤ 2^63 := anchored_end h
  have hup : alignUp A.curPtr 1 = A.curPtr := alignUp_one (by omega)
  rw [rawInner_fits h sys powerOfTwo_one ((str_fits h).mpr hroom) fallible, hup]
  rfl

theorem allocStr_eq (h : Anchored A) (sys : SystemAlloc) {len : ℕ} (hne : len ≠ 0)
    (hlen : len < 2^63) :
    allocStr sys A len = onRaw (A.rawInner false sys len 1) len 1 0 (placeBytes len) := by
  have htop : A.curEnd ≤ 2^63 := anchored_end h
  have hptr := h.ptr_le
  unfold allocStr
  rw [if_neg hne, wadd_eq (by omega)]
  dsimp only
  by_cases hroom : A.curPtr + len ≤ A.curEnd
  · rw [if_pos hroom, str_bump h sys false hroom]
  · rw [if_neg hroom]
    rfl

theorem tryAllocStr_eq (h : Anchored A) (sys : SystemAlloc) {len : ℕ} (hne : len ≠ 0)
    (hlen : len < 2^63) :
    tryAllocStr sys A len = onRaw (A.rawInner true sys len 1) len 1 0 (placeBytes len) := by
  have htop : A.curEnd ≤ 2^63 := anchored_end h
  have hptr := h.ptr_le
  have hadd : checkedAdd A.curPtr len = some (A.curPtr + len) := by
    rw [checkedAdd, if_pos (by omega)]
  unfold tryAllocStr
  rw [if_neg hne, wadd_eq (by omega), hadd]
  dsimp only
  by_cases hroom : A.curPtr + len ≤ A.curEnd
  · rw [if_pos hroom, str_bump h sys true hroom]
  · rw [if_neg hroom]
    rfl

theorem allocRawWith_eq (fallible : Bool) (sys : SystemAlloc) (A : Arena) (size align : ℕ)
    (filled : ℕ → Arena → Outcome) :
    allocRawWith fallible sys A size align filled =
      if PowerOfTwo align ∧ size ≠ 0 then
        onRaw (A.rawInner fallible sys size align) size align 0 filled
      else answer A (if PowerOfTwo align then .ptr 1 else .panic alignPanic) 0 := by
  unfold allocRawWith
  by_cases hpow : PowerOfTwo align <;> by_cases hsize : size = 0 <;> simp [hpow, hsize]

theorem allocSliceWith_cases (fallible : Bool) (overflow : Ret) (sys : SystemAlloc) (A : Arena)
    (ty : Ty) (len : ℕ) (filled : ℕ → Arena → Outcome) :
    (sliceDemand ty len = none ∧
        ∃ ret drops, allocSliceWith fallible overflow sys A ty len filled = answer A ret drops) ∨
      ∃ size align, sliceDemand ty len = some (size,align) ∧
        allocSliceWith fallible overflow sys A ty len filled =
          onRaw (A.rawInner fallible sys size align) size align 0 filled := by
  unfold sliceDemand allocSliceWith
  by_cases hlen : len = 0
  · exact Or.inl ⟨if_pos hlen,_,_,if_pos hlen⟩
  · rw [if_neg hlen, if_neg hlen]
    cases checkedMul ty.size len with
    | none => exact Or.inl ⟨rfl,_,_,rfl⟩
    | some total => exact Or.inr ⟨_,_,rfl,rfl⟩

theorem allocRawWith_cases (fallible : Bool) (sys : SystemAlloc) (A : Arena) (size align : ℕ)
    (filled : ℕ → Arena → Outcome) :
    (¬ (PowerOfTwo align ∧ size ≠ 0) ∧
        ∃ ret drops, allocRawWith fallible sys A size align filled = answer A ret drops) ∨
      (PowerOfTwo align ∧ size ≠ 0) ∧ allocRawWith fallible sys A size align filled =
        onRaw (A.rawInner fallible sys size align) size align 0 filled := by
  unfold allocRawWith
  by_cases hpow : PowerOfTwo align
  · rw [if_pos hpow]
    by_cases hsize : size = 0
    · exact Or.inl ⟨fun hh => hh.2 hsize,_,_,if_pos hsize⟩
    · exact Or.inr ⟨⟨hpow,hsize⟩,if_neg hsize⟩
  · exact Or.inl ⟨fun hh => hpow hh.1,_,_,if_neg hpow⟩

/-- Every method is a raw request for what it demands, followed by its own way of filling the
region; with nothing to demand it only answers. -/
theorem serve_demand (h : Wf A) (sys : SystemAlloc) {r : Request} (hr : r.Typed) :
    (r.kind.demand = none ∧ ∃ ret drops, r.serve sys A = answer A ret drops) ∨
      ∃ size align, r.kind.demand = some (size,align) ∧ r.serve sys A =
        onRaw (A.rawInner r.fallible sys size align) size align r.kind.lost r.kind.filled := by
  obtain ⟨kind,fallible⟩ := r
  cases kind with
  | value ty =>
    have hserve : Request.serve sys A ⟨.value ty,fallible⟩ = allocWith fallible sys A ty := by
      cases fallible <;> rfl
    rw [hserve]
    by_cases hsize : ty.size = 0
    · exact Or.inl ⟨if_pos hsize,_,_,if_pos hsize⟩
    · exact Or.inr ⟨_,_,if_neg hsize,if_neg hsize⟩
  | slice ty len yields =>
    cases fallible with
    | false => exact allocSliceWith_cases false _ sys A ty len _
    | true => exact allocSliceWith_cases true _ sys A ty len _
  | sliceCopy ty len =>
    cases fallible with
    | false => exact allocSliceWith_cases false _ sys A ty len _
    | true => exact allocSliceWith_cases true _ sys A ty len _
  | str len =>
    by_cases hlen : len = 0
    · cases fallible <;> exact Or.inl ⟨if_pos hlen,_,_,if_pos hlen⟩
    · refine Or.inr ⟨_,_,if_neg hlen,?_⟩
      cases fallible with
      | false => exact allocStr_eq (anchored h) sys hlen hr
      | true => exact tryAllocStr_eq (anchored h) sys hlen hr
  | uninit ty =>
    obtain rfl : fallible = false := hr
    by_cases hsize : ty.size = 0
    · exact Or.inl ⟨if_pos hsize,_,_,if_pos hsize⟩
    · exact Or.inr ⟨_,_,if_neg hsize,if_neg hsize⟩
  | raw size align =>
    have hserve : Request.serve sys A ⟨.raw size align,fallible⟩ =
        allocRawWith fallible sys A size align placeNothing := by cases fallible <;> rfl
    rw [hserve]
    rcases allocRawWith_cases fallible sys A size align placeNothing with ⟨hno,hans⟩ | ⟨hyes,hraw⟩
    · exact Or.inl ⟨if_neg hno,hans⟩
    · exact Or.inr ⟨_,_,if_pos hyes,hraw⟩
  | zeroed size align =>
    by_cases hsize : size = 0
    · refine Or.inl ⟨if_neg (fun hh => hh.2 hsize),?_⟩
      cases fallible with
      | false => exact ⟨_,_,if_pos hsize⟩
      | true =>
        rcases allocRawWith_cases true sys A size align (placeBytes size) with ⟨-,hans⟩ | ⟨hyes,-⟩
        · exact hans
        · exact absurd hsize hyes.2
    · have hserve : Request.serve sys A ⟨.zeroed size align,fallible⟩ =
          allocRawWith fallible sys A size align (placeBytes size) := by
        cases fallible with
        | false => exact if_neg hsize
        | true => rfl
      rw [hserve]
      rcases allocRawWith_cases fallible sys A size align (placeBytes size) with
        ⟨hno,hans⟩ | ⟨hyes,hraw⟩
      · exact Or.inl ⟨if_neg hno,hans⟩
      · exact Or.inr ⟨_,_,if_pos hyes,hraw⟩
  | cacheAligned size =>
    have hserve : Request.serve sys A ⟨.cacheAligned size,fallible⟩ =
        allocRawWith fallible sys A size cacheLineSize placeNothing := by cases fallible <;> rfl
    rw [hserve]
    rcases allocRawWith_cases fallible sys A size cacheLineSize placeNothing with
      ⟨hno,hans⟩ | ⟨hyes,hraw⟩
    · exact Or.inl ⟨if_neg (fun hsize => hno ⟨minBlockAlign_pow,hsize⟩),hans⟩
    · exact Or.inr ⟨_,_,if_pos hyes.2,hraw⟩

/-- What is done to a region stays inside it: only the region is written, only the registry of
the arena changes, and what is owed there is the region itself. -/
structure Fills (k : Kind) (size p : ℕ) (A : Arena) (o : Outcome) : Prop where
  arena_eq : ∃ registry, o.arena = { A with dropRegistry := registry } ∧
    registry.isTracking = A.dropRegistry.isTracking ∧ registry.entries =
      A.dropRegistry.entries ++ (if A.dropRegistry.isTracking then k.owed p else [])
  wrote : ∀ s ∈ o.wrote, s.Within ⟨p,size⟩
  ret_eq : o.ret = k.reply p
  owed_extent : ∀ slot ∈ k.owed p, slot.extent = ⟨p,size⟩

theorem within_self (s : Span) : s.Within s := ⟨le_refl _,le_refl _⟩

theorem placeValue_fills (ty : Ty) (p : ℕ) (A : Arena) :
    Fills (.value ty) ty.size p A (placeValue ty p A) where
  arena_eq := by
    refine ⟨_,rfl,DropRegistry.isTracking_register _ _ _,?_⟩
    rw [DropRegistry.entries_register]
    cases htrack : A.dropRegistry.isTracking <;> cases hdrop : ty.needsDrop <;>
      simp [Kind.owed, hdrop]
  wrote := by
    intro s hs
    rw [List.mem_singleton.mp hs]
    exact within_self _
  ret_eq := rfl
  owed_extent := by
    intro slot hslot
    simp only [Kind.owed, List.mem_ite_nil_right, List.mem_singleton] at hslot
    obtain ⟨-,rfl⟩ := hslot
    simp [DropSlot.extent, DropSlot.ptr, DropSlot.count, DropSlot.ty]

theorem placeElements_fills (ty : Ty) {len : ℕ} (hlen : len ≠ 0) (yields p : ℕ) (A : Arena) :
    Fills (.slice ty len yields) (len * ty.size) p A (placeElements ty len yields p A) := by
  have hextent : ∀ slot ∈ (Kind.slice ty len yields).owed p,
      slot.extent = ⟨p,len * ty.size⟩ := by
    intro slot hslot
    simp only [Kind.owed, List.mem_ite_nil_right, List.mem_singleton] at hslot
    obtain ⟨-,rfl⟩ := hslot
    rfl
  unfold placeElements
  by_cases hshort : yields < len
  · rw [if_pos hshort]
    have hpanic : (Kind.slice ty len yields).reply p = .panic unwrapPanic :=
      if_neg (Nat.not_le.mpr hshort)
    refine ⟨⟨A.dropRegistry,rfl,rfl,?_⟩,?_,hpanic.symm,hextent⟩
    · have hnone : (Kind.slice ty len yields).owed p = [] := if_neg (fun hh => by omega)
      rw [hnone, ite_self, List.append_nil]
    · intro s hs
      rw [List.mem_singleton.mp hs]
      exact ⟨le_refl _,Nat.add_le_add_left (Nat.mul_le_mul_right _ hshort.le) _⟩
  · rw [if_neg hshort]
    have hptr : (Kind.slice ty len yields).reply p = .ptr p := if_pos (Nat.not_lt.mp hshort)
    refine ⟨⟨_,rfl,DropRegistry.isTracking_registerSlice _ _ _ _,?_⟩,?_,hptr.symm,hextent⟩
    · rw [DropRegistry.entries_registerSlice]
      have hfull : len ≤ yields := by omega
      cases htrack : A.dropRegistry.isTracking <;> cases hdrop : ty.needsDrop <;>
        simp [Kind.owed, hdrop, hfull, hlen]
    · intro s hs
      rw [List.mem_singleton.mp hs]
      exact within_self _

theorem copyElements_fills (ty : Ty) {len : ℕ} (hlen : len ≠ 0) (p : ℕ) (A : Arena) :
    Fills (.sliceCopy ty len) (len * ty.size) p A (placeElements ty len len p A) := by
  have howed : (Kind.sliceCopy ty len).owed p = (Kind.slice ty len len).owed p := by
    simp [Kind.owed]
  have hreply : (Kind.slice ty len len).reply p = (Kind.sliceCopy ty len).reply p :=
    if_pos (le_refl len)
  obtain ⟨harena,hwrote,hret,hextent⟩ := placeElements_fills ty hlen len p A
  rw [← howed] at harena hextent
  exact ⟨harena,hwrote,hret.trans hreply,hextent⟩

theorem plain_fills {o : Outcome} (A : Arena) (howed : k.owed p = []) (harena : o.arena = A)
    (hwrote : ∀ s ∈ o.wrote, s.Within ⟨p,size⟩) (hret : o.ret = k.reply p) :
    Fills k size p A o where
  arena_eq := ⟨A.dropRegistry,harena,rfl,by rw [howed, ite_self, List.append_nil]⟩
  wrote := hwrote
  ret_eq := hret
  owed_extent := by
    rw [howed]
    exact nofun

theorem placeBytes_fills (howed : k.owed p = []) (hreply : k.reply p = .ptr p) (size : ℕ)
    (A : Arena) : Fills k size p A (placeBytes size p A) := by
  apply plain_fills A howed rfl _ hreply.symm
  intro s hs
  rw [List.mem_singleton.mp hs]
  exact within_self _

theorem placeNothing_fills (howed : k.owed p = []) (hreply : k.reply p = .ptr p) (size : ℕ)
    (A : Arena) : Fills k size p A (placeNothing p A) :=
  plain_fills A howed rfl nofun hreply.symm

theorem filled_fills (hd : k.demand = some (size,align)) (p : ℕ) (A : Arena) :
    Fills k size p A (k.filled p A) := by
  cases k with
  | value ty =>
    obtain ⟨-,rfl,-⟩ := demand_unless hd
    exact placeValue_fills ty p A
  | slice ty len yields =>
    obtain ⟨hlen,rfl,-,-⟩ := sliceDemand_some hd
    exact placeElements_fills ty hlen yields p A
  | sliceCopy ty len =>
    obtain ⟨hlen,rfl,-,-⟩ := sliceDemand_some hd
    exact copyElements_fills ty hlen p A
  | str len =>
    obtain ⟨-,rfl,-⟩ := demand_unless hd
    exact placeBytes_fills rfl rfl len A
  | uninit ty => exact placeNothing_fills rfl rfl size A
  | raw size' align' => exact placeNothing_fills rfl rfl size A
  | zeroed size' align' =>
    obtain ⟨-,rfl,-⟩ := demand_if hd
    exact placeBytes_fills rfl rfl size' A
  | cacheAligned size' => exact placeNothing_fills rfl rfl size A

/-- How a call ends: it carved a region and filled it, or it carved none and moved nothing. -/
inductive Served (sys : SystemAlloc) (A : Arena) (r : Request) : Outcome → Prop where
  | carved {size align p : ℕ} {A₁ : Arena} {o : Outcome}
      (hd : r.kind.demand = some (size,align)) (hpow : PowerOfTwo align)
      (hend : RawEnd r.fallible sys A size align (.ptr p) A₁) (hcarved : Carved A size align p A₁)
      (hcarve : o.carved = some ⟨⟨p,size⟩,align⟩) (hfills : Fills r.kind size p A₁ o) :
      Served sys A r o
  | failed {size align : ℕ} {ret : Ret} {A₁ : Arena} (hd : r.kind.demand = some (size,align))
      (hpow : PowerOfTwo align) (hend : RawEnd r.fallible sys A size align ret A₁)
      (hret : ∀ p, ret ≠ .ptr p) (h : Unmoved A A₁) :
      Served sys A r (answer A₁ ret r.kind.lost)
  | answered {ret : Ret} {drops : ℕ} (hd : r.kind.demand = none) :
      Served sys A r (answer A ret drops)

theorem serve_served (h : Wf A) (hs : Grants sys A.blocks) {r : Request} (hr : r.Typed) :
    Served sys A r (r.serve sys A) := by
  rcases serve_demand h sys hr with ⟨hd,ret,drops,heq⟩ | ⟨size,align,hd,heq⟩
  · rw [heq]
    exact .answered hd
  · obtain ⟨hpow,hsize⟩ := demand_typed hr hd
    have hend := rawInner_end h hs hpow hsize r.fallible
    rw [heq]
    cases hraw : A.rawInner r.fallible sys size align with
    | mk ret A₁ =>
    rw [hraw] at hend
    rcases rawEnd_cases h hpow hend with ⟨p,rfl,hcarved⟩ | ⟨hret,hunmoved⟩
    · obtain ⟨harena,hwrote,hfret,howed⟩ := filled_fills hd p A₁
      exact .carved hd hpow hend hcarved rfl ⟨harena,hwrote,hfret,howed⟩
    · have hans : onRaw (ret,A₁) size align r.kind.lost r.kind.filled =
          answer A₁ ret r.kind.lost := by
        cases ret with
        | ptr p => exact absurd rfl (hret p)
        | none => rfl
        | panic message => rfl
      rw [hans]
      exact .failed hd hpow hend hret hunmoved

end served
end FastArena.ArenaRequests
