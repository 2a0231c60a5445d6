import FastArena.FinishedVec
import FastArena.VecRefinement

/-!
# Iterators that lie about their length

A slice and an `extend_exact` take the reported length for the room and ask the
iterator once for each element. The room comes first, the elements next, then the
registration or the new length; so an iterator that ends early or panics leaves
nothing behind that anyone would read. What it may leave is a vector whose growth,
for a reported length past memory, has wrapped.
-/

set_option autoImplicit false

namespace FastArena.LyingIterator
open FastArena.MachineWord FastArena.ByteSpan FastArena.ArenaBlock FastArena.InlineStorage
  FastArena.DropTracking FastArena.ArenaCore FastArena.ArenaInvariant FastArena.RawRequest
  FastArena.ArenaRequests FastArena.LabelledRun FastArena.ArenaWorld FastArena.TypedMemory
  FastArena.GrowableVec FastArena.VecGrowth FastArena.VecContents FastArena.FinishedVec
open FastArena.VecRefinement (byteCodec)

inductive Answer (α : Type*) where
  | item (x : α)
  | ended
  | panics (message : String)

abbrev Answers (α : Type*) := ℕ → Answer α

structure Bulk (β : Type*) where
  mem : ℕ → β
  count : ℕ
  panic : Option String

section loop
variable {α β : Type*} {size : ℕ} (c : Codec size α β) (iter : Answers α) (dst : ℕ)

-- The loop over `n` elements from number `i` on; the answer is unwrapped before it is written.
def writeLoop : ℕ → ℕ → (ℕ → β) → Bulk β
  | 0, i, m => ⟨m,i,none⟩
  | n+1, i, m =>
    match iter i with
    | .item x => writeLoop n (i+1) (store c m (dst + i*size) x)
    | .ended => ⟨m,i,some unwrapPanic⟩
    | .panics message => ⟨m,i,some message⟩

def writeSliceBulk (m : ℕ → β) (len : ℕ) : Bulk β := writeLoop c iter dst len 0 m

end loop

section calls
variable {α β : Type*} {ty : Ty} (c : Codec ty.size α β) (sys : SystemAlloc) (A : Arena)
  (m : ℕ → β) (len : ℕ) (iter : Answers α)

def allocSlice (fallible : Bool) : Outcome × (ℕ → β) :=
  if len = 0 then (answer A (.ptr ty.align) 0,m)
  else match checkedMul ty.size len with
  | none => (answer A (if fallible then .none else .panic "overflow") 0,m)
  | some total =>
    match A.rawInner fallible sys total ty.align with
    | (.ptr start,A) =>
      let w := writeSliceBulk c iter start m len
      match w.panic with
      | some message => (⟨A,.panic message,some ⟨⟨start,total⟩,ty.align⟩,
          [⟨start,w.count * ty.size⟩],0⟩,w.mem)
      | none => (⟨{ A with dropRegistry := A.dropRegistry.registerSlice ty start len },.ptr start,
          some ⟨⟨start,total⟩,ty.align⟩,[⟨start,w.count * ty.size⟩],0⟩,w.mem)
    | (ret,A) => (answer A ret 0,m)

def extendExact (v : ArenaVec) : VecOutcome × (ℕ → β) :=
  if len = 0 then (enough v A,m)
  else match checkedAdd v.len len with
  | none => (refuse v A (overflowRes false),m)
  | some newLen =>
    let g := if ty.size > 0 ∧ newLen > v.cap then growTo sys A ty v newLen else enough v A
    if g.grew then
      let w := writeSliceBulk c iter (g.vec.ptr + v.len * ty.size) (ElemOp.relocated ty v g.vec m) len
      match w.panic with
      | some message => ({ g with res := .panic message },w.mem)
      | none => ({ g with vec := { g.vec with len := newLen } },w.mem)
    else (g,m)

end calls

def Gives {α : Type*} (iter : Answers α) (xs : List α) : Prop :=
  ∀ k x, xs[k]? = some x → iter k = .item x

section guarded
variable {α β : Type*} {ty : Ty} (c : Codec ty.size α β)

/-- A slice is shown only if the iterator gave all its elements, and then shows these. Otherwise
nothing is registered, and a `None` comes before the iterator is asked. The session goes on
soundly. -/
structure SliceGuarded (s : Session) (fallible : Bool) (m : ℕ → β) (len : ℕ) (iter : Answers α)
    (o : Outcome × (ℕ → β)) : Prop where
  completes : ∀ p, o.1.ret = .ptr p →
    ∃ xs, xs.length = len ∧ Gives iter xs ∧ elements c o.2 (p,len) = xs
  unregistered : (∀ p, o.1.ret ≠ .ptr p) → o.1.arena.dropRegistry = s.world.arena.dropRegistry
  refuses : o.1.ret = .none → fallible = true ∧ o.2 = m
  sound : Session.Inv ⟨s.world.take o.1,none⟩

/-- The vector grows by all the elements reported, as the iterator gave them, or the call panics
and it shows what it did before. Nothing is registered, and the session goes on soundly, the
vector's buffer included: it is still `Fitted`. -/
structure ExtendGuarded (s : Session) (v : ArenaVec) (m : ℕ → β) (len : ℕ) (iter : Answers α)
    (o : VecOutcome × (ℕ → β)) : Prop where
  completes : o.1.res = .ok → o.1.vec.len = v.len+len ∧ ∃ xs, xs.length = len ∧ Gives iter xs ∧
    elements c o.2 (asSlice o.1.vec) = elements c m (asSlice v) ++ xs
  otherwise : o.1.res ≠ .ok → (∃ message, o.1.res = .panic message) ∧ o.1.vec.len = v.len ∧
    elements c o.2 (asSlice o.1.vec) = elements c m (asSlice v)
  unregistered : o.1.call.arena.dropRegistry = s.world.arena.dropRegistry
  sound : Session.Inv ⟨s.world.take o.1.call,some (ty,o.1.vec)⟩

end guarded

def items {α : Type*} (iter : Answers α) : ℕ → ℕ → List α
  | 0, _ => []
  | n+1, i =>
    match iter i with
    | .item x => x :: items iter n (i+1)
    | _ => []

section items
variable {α β : Type*} {size : ℕ} {c : Codec size α β} {iter : Answers α} {dst : ℕ}

theorem items_length_le (iter : Answers α) (n i : ℕ) : (items iter n i).length ≤ n := by
  induction n generalizing i with
  | zero => exact le_refl 0
  | succ n ih =>
    unfold items
    split
    · exact Nat.succ_le_succ (ih (i+1))
    · exact Nat.zero_le _

theorem items_gives {n i k : ℕ} {x : α} (h : (items iter n i)[k]? = some x) :
    iter (i+k) = .item x := by
  induction n generalizing i k with
  | zero => simp [items] at h
  | succ n ih =>
    unfold items at h
    split at h
    · next y hy =>
      cases k with
      | zero =>
        obtain rfl := Option.some.inj h
        exact hy
      | succ k =>
        have hk := ih (i := i+1) h
        rwa [show i+1+k = i+(k+1) by omega] at hk
    · simp at h

/-- The loop writes the elements the iterator gives, and panics unless it gives all of them. -/
theorem writeLoop_spec (n i : ℕ) (m : ℕ → β) :
    (writeLoop c iter dst n i m).mem = stores c m (dst + i*size) (items iter n i) ∧
      (writeLoop c iter dst n i m).count = i + (items iter n i).length ∧
      ((writeLoop c iter dst n i m).panic = none ↔ (items iter n i).length = n) := by
  induction n generalizing i m with
  | zero => exact ⟨rfl,rfl,iff_of_true rfl rfl⟩
  | succ n ih =>
    unfold writeLoop items
    cases hi : iter i with
    | item x =>
      obtain ⟨hmem,hcount,hpanic⟩ := ih (i+1) (store c m (dst + i*size) x)
      dsimp only
      rw [hmem, hcount, hpanic, Nat.succ_mul, ← Nat.add_assoc]
      refine ⟨rfl,?_,?_⟩
      · rw [List.length_cons]
        omega
      · rw [List.length_cons, Nat.add_right_cancel_iff]
    | ended => exact ⟨rfl,rfl,iff_of_false (Option.some_ne_none _) (Nat.succ_ne_zero n).symm⟩
    | panics message =>
      exact ⟨rfl,rfl,iff_of_false (Option.some_ne_none _) (Nat.succ_ne_zero n).symm⟩

theorem bulk_completes {m : ℕ → β} {len : ℕ} (h : (writeSliceBulk c iter dst m len).panic = none) :
    (items iter len 0).length = len ∧ Gives iter (items iter len 0) ∧
      (writeSliceBulk c iter dst m len).mem = stores c m dst (items iter len 0) := by
  obtain ⟨hmem,-,hpanic⟩ := @writeLoop_spec α β size c iter dst len 0 m
  refine ⟨hpanic.mp h,fun k x hk => ?_,?_⟩
  · have hget := items_gives hk
    rwa [Nat.zero_add] at hget
  · rw [Nat.zero_mul, Nat.add_zero] at hmem
    exact hmem

theorem bulk_breaks {m : ℕ → β} {len : ℕ} {message : String}
    (h : (writeSliceBulk c iter dst m len).panic = some message) :
    (items iter len 0).length < len := by
  obtain ⟨-,-,hpanic⟩ := @writeLoop_spec α β size c iter dst len 0 m
  refine lt_of_le_of_ne (items_length_le iter len 0) (fun hall => ?_)
  exact absurd ((hpanic.mpr hall).symm.trans h) (Option.some_ne_none _).symm

end items

section slices
variable {α β : Type*} {ty : Ty} {c : Codec ty.size α β} {sys : SystemAlloc} {A : Arena}
  {m : ℕ → β} {len : ℕ} {iter : Answers α} {fallible : Bool}

def sliceRequest (ty : Ty) (len : ℕ) (iter : Answers α) (fallible : Bool) : Request :=
  ⟨.slice ty len (items iter len 0).length,fallible⟩

inductive SliceEnd (c : Codec ty.size α β) (fallible : Bool) (sys : SystemAlloc) (A : Arena)
    (m : ℕ → β) (len : ℕ) (iter : Answers α) : Outcome × (ℕ → β) → Prop where
  | empty (hlen : len = 0) : SliceEnd c fallible sys A m len iter (answer A (.ptr ty.align) 0,m)
  | refused {ret : Ret} {A₁ : Arena} (hret : ∀ p, ret ≠ .ptr p)
      (hregistry : A₁.dropRegistry = A.dropRegistry) (hnone : ret = .none → fallible = true) :
      SliceEnd c fallible sys A m len iter (answer A₁ ret 0,m)
  | broken {start total count : ℕ} {A₁ : Arena} {message : String} {m' : ℕ → β}
      (hregistry : A₁.dropRegistry = A.dropRegistry) :
      SliceEnd c fallible sys A m len iter (⟨A₁,.panic message,some ⟨⟨start,total⟩,ty.align⟩,
        [⟨start,count⟩],0⟩,m')
  | shown {start : ℕ} {o : Outcome} (hret : o.ret = .ptr start)
      (hall : (items iter len 0).length = len) (hgives : Gives iter (items iter len 0)) :
      SliceEnd c fallible sys A m len iter (o,stores c m start (items iter len 0))

theorem allocSlice_end (h : Wf A) (hs : Grants sys A.blocks) :
    SliceEnd c fallible sys A m len iter (allocSlice c sys A m len iter fallible) := by
  unfold allocSlice
  by_cases hlen : len = 0
  · rw [if_pos hlen]
    exact .empty hlen
  · rw [if_neg hlen]
    cases htotal : checkedMul ty.size len with
    | none =>
      refine .refused (fun p => ?_) rfl (fun hnone => ?_)
      · cases fallible <;> exact fun hh => Ret.noConfusion hh
      · cases fallible
        · exact Ret.noConfusion hnone
        · rfl
    | some total =>
      obtain ⟨rfl,hlt⟩ := checkedMul_some htotal
      have hend := rawInner_end h hs ty.align_pow hlt fallible
      have hregistry := @rawInner_registry A sys (ty.size*len) ty.align fallible
      dsimp only
      cases hraw : A.rawInner fallible sys (ty.size*len) ty.align with
      | mk ret A₁ =>
      rw [hraw] at hend hregistry
      cases ret with
      | none =>
        refine .refused (fun p hh => Ret.noConfusion hh) hregistry (fun _ => ?_)
        cases hend with
        | stalled _ _ _ _ hret =>
          rcases hret with ⟨-,hfallible⟩ | ⟨message,hret⟩
          · exact hfallible
          · exact Ret.noConfusion hret
        | rejected hfallible _ => exact hfallible
      | panic message =>
        exact .refused (fun p hh => Ret.noConfusion hh) hregistry (fun hh => Ret.noConfusion hh)
      | ptr start =>
        dsimp only
        cases hpanic : (writeSliceBulk c iter start m len).panic with
        | some message => exact .broken hregistry
        | none =>
          obtain ⟨hall,hgives,hmem⟩ := bulk_completes hpanic
          rw [hmem]
          exact .shown rfl hall hgives

theorem allocSlice_serve : (allocSlice c sys A m len iter fallible).1.arena =
      ((sliceRequest ty len iter fallible).serve sys A).arena ∧
    (allocSlice c sys A m len iter fallible).1.carved =
      ((sliceRequest ty len iter fallible).serve sys A).carved ∧
    (allocSlice c sys A m len iter fallible).1.wrote =
      ((sliceRequest ty len iter fallible).serve sys A).wrote := by
  have hserve : (sliceRequest ty len iter fallible).serve sys A =
      allocSliceWith fallible (if fallible then .none else .panic "overflow") sys A ty len
        (placeElements ty len (items iter len 0).length) := by
    cases fallible <;> rfl
  rw [hserve]
  unfold allocSlice allocSliceWith
  by_cases hlen : len = 0
  · rw [if_pos hlen, if_pos hlen]
    exact ⟨rfl,rfl,rfl⟩
  · rw [if_neg hlen, if_neg hlen]
    cases htotal : checkedMul ty.size len with
    | none => exact ⟨rfl,rfl,rfl⟩
    | some total =>
      dsimp only
      cases hraw : A.rawInner fallible sys total ty.align with
      | mk ret A₁ =>
      cases ret with
      | none => exact ⟨rfl,rfl,rfl⟩
      | panic message => exact ⟨rfl,rfl,rfl⟩
      | ptr start =>
        obtain ⟨-,hcount,-⟩ := @writeLoop_spec α β ty.size c iter start len 0 m
        change (writeSliceBulk c iter start m len).count = _ at hcount
        rw [Nat.zero_add] at hcount
        unfold onRaw placeElements
        dsimp only
        cases hbulk : (writeSliceBulk c iter start m len).panic with
        | some message =>
          rw [if_pos (bulk_breaks hbulk), hcount]
          exact ⟨rfl,rfl,rfl⟩
        | none =>
          have hall := (bulk_completes hbulk).1
          rw [if_neg (by omega), hcount, hall]
          exact ⟨rfl,rfl,rfl⟩

theorem take_alike (w : World) {o o' : Outcome} (harena : o.arena = o'.arena)
    (hcarved : o.carved = o'.carved) (hwrote : o.wrote = o'.wrote) : w.take o = w.take o' := by
  have hgrant : w.grantOf o = w.grantOf o' := by
    unfold World.grantOf
    rw [harena, hcarved, hwrote]
  unfold World.take
  rw [hgrant, harena]

theorem slice_guarded {s : Session} (h : s.Inv) (hclosed : s.vec = none)
    (hs : Grants sys s.world.arena.blocks) (hlen : len < 2^64) :
    SliceGuarded c s fallible m len iter (allocSlice c sys s.world.arena m len iter fallible) := by
  have hend := @allocSlice_end α β ty c sys s.world.arena m len iter fallible h.world.wf hs
  obtain ⟨harena,hcarved,hwrote⟩ := @allocSlice_serve α β ty c sys s.world.arena m len iter fallible
  have hsound : Session.Inv
      ⟨s.world.take (allocSlice c sys s.world.arena m len iter fallible).1,none⟩ := by
    rw [take_alike s.world harena hcarved hwrote]
    have hstep := @session_step s h (.arena (.request sys (sliceRequest ty len iter fallible)))
      ⟨hs,hlen⟩ trivial
    simp only [Session.step, hclosed] at hstep
    exact hstep
  generalize allocSlice c sys s.world.arena m len iter fallible = o at hend hsound
  cases hend with
  | empty hzero =>
    subst hzero
    exact ⟨fun p _ => ⟨[],rfl,fun k x hk => absurd hk (Option.some_ne_none x).symm,rfl⟩,
      fun _ => rfl,fun hnone => Ret.noConfusion hnone,hsound⟩
  | refused hret hregistry hnone =>
    exact ⟨fun p hp => absurd hp (hret p),fun _ => hregistry,fun hh => ⟨hnone hh,rfl⟩,hsound⟩
  | broken hregistry =>
    exact ⟨fun p hp => Ret.noConfusion hp,fun _ => hregistry,fun hh => Ret.noConfusion hh,hsound⟩
  | @shown start o hret hall hgives =>
    refine ⟨fun p hp => ⟨items iter len 0,hall,hgives,?_⟩,fun hno => absurd hret (hno start),
      fun hh => Ret.noConfusion (hret.symm.trans hh),hsound⟩
    obtain rfl := Ret.ptr.inj (hret.symm.trans hp)
    have hloads := @loads_stores α β ty.size c m start (items iter len 0)
    rwa [hall] at hloads

end slices

section vectors
variable {α β : Type*} {ty : Ty} {c : Codec ty.size α β} {sys : SystemAlloc} {A : Arena}
  {m : ℕ → β} {len : ℕ} {iter : Answers α} {v : ArenaVec}

def extendOp (len : ℕ) (iter : Answers α) : VecOp := .extendExact len (items iter len 0).length

theorem extendExact_apply :
    (extendExact c sys A m len iter v).1.call = ((extendOp len iter).apply sys A ty v).call ∧
      (extendExact c sys A m len iter v).1.vec = ((extendOp len iter).apply sys A ty v).vec := by
  unfold extendExact extendOp VecOp.apply GrowableVec.extendExact extendWith
  dsimp only
  by_cases hlen : len = 0
  · rw [if_pos hlen, if_pos hlen]
    exact ⟨rfl,rfl⟩
  · rw [if_neg hlen, if_neg hlen]
    cases hadd : checkedAdd v.len len with
    | none => exact ⟨rfl,rfl⟩
    | some newLen =>
      dsimp only
      generalize (if ty.size > 0 ∧ newLen > v.cap then growTo sys A ty v newLen
        else enough v A) = g
      unfold writing
      by_cases hgrew : g.grew = true
      · rw [if_pos hgrew, if_pos hgrew]
        cases hbulk : (writeSliceBulk c iter (g.vec.ptr + v.len * ty.size)
            (ElemOp.relocated ty v g.vec m) len).panic with
        | some message =>
          rw [if_pos (bulk_breaks hbulk)]
          exact ⟨rfl,rfl⟩
        | none =>
          have hall := (bulk_completes hbulk).1
          rw [if_neg (by omega)]
          exact ⟨rfl,rfl⟩
      · rw [if_neg hgrew, if_neg hgrew]
        exact ⟨rfl,rfl⟩

theorem grew_panics {n : ℕ} {g : VecOutcome} (hg : Grew false sys A ty v n g)
    (hgrew : g.grew = false) : ∃ message, g.res = .panic message := by
  cases hg with
  | extended _ _ _ => exact Bool.noConfusion hgrew
  | wrapped _ => exact Bool.noConfusion hgrew
  | overflowed _ => exact ⟨_,rfl⟩
  | relocated _ _ _ => exact Bool.noConfusion hgrew
  | stuck hpos _ hraw hret =>
    rcases hret with ⟨hnone,-⟩ | ⟨message,-,hres⟩
    · obtain ⟨ret,A₁,rfl,hend,-⟩ := raw_failed hpos hraw
        (fun p hp => Ret.noConfusion (hp.symm.trans hnone))
      obtain rfl : ret = .none := hnone
      cases hend with
      | stalled _ _ _ _ hret =>
        rcases hret with ⟨-,hfallible⟩ | ⟨message,hpanic⟩
        · exact Bool.noConfusion hfallible
        · exact Ret.noConfusion hpanic
      | rejected hfallible _ => exact Bool.noConfusion hfallible
    · exact ⟨message,hres⟩

inductive ExtendEnd (c : Codec ty.size α β) (A : Arena) (v : ArenaVec) (m : ℕ → β) (len : ℕ)
    (iter : Answers α) : VecOutcome × (ℕ → β) → Prop where
  | nothing (hlen : len = 0) : ExtendEnd c A v m len iter (enough v A,m)
  | refused {o : VecOutcome} {message : String} (hvec : o.vec = v) (hres : o.res = .panic message) :
      ExtendEnd c A v m len iter (o,m)
  | broken {o : VecOutcome} {message : String} (xs : List α) (hlen : o.vec.len = v.len)
      (hres : o.res = .panic message) : ExtendEnd c A v m len iter
        (o,stores c (ElemOp.relocated ty v o.vec m) (o.vec.ptr + v.len * ty.size) xs)
  | done {o : VecOutcome} (hlen : o.vec.len = v.len+len) (hres : o.res = .ok)
      (hall : (items iter len 0).length = len) (hgives : Gives iter (items iter len 0)) :
      ExtendEnd c A v m len iter (o,stores c (ElemOp.relocated ty v o.vec m)
        (o.vec.ptr + v.len * ty.size) (items iter len 0))

theorem extendExact_end (h : Wf A) (hs : Grants sys A.blocks)
    (hv : 0 < ty.size → Fitted A ty v) :
    ExtendEnd c A v m len iter (extendExact c sys A m len iter v) := by
  unfold extendExact
  by_cases hlen : len = 0
  · rw [if_pos hlen]
    exact .nothing hlen
  · rw [if_neg hlen]
    cases hadd : checkedAdd v.len len with
    | none => exact .refused rfl rfl
    | some newLen =>
      obtain ⟨rfl,-⟩ := checkedAdd_some hadd
      dsimp only
      have hplain : Plain v (if ty.size > 0 ∧ v.len+len > v.cap then growTo sys A ty v (v.len+len)
          else enough v A) := plain_if (plain_growWith false (v.len+len)) _
      have hpanics : (if ty.size > 0 ∧ v.len+len > v.cap then growTo sys A ty v (v.len+len)
          else enough v A).grew = false → ∃ message, (if ty.size > 0 ∧ v.len+len > v.cap then
            growTo sys A ty v (v.len+len) else enough v A).res = .panic message := by
        split
        · next hgrow =>
          exact grew_panics (growWith_grew h hs hgrow.1 (hv hgrow.1) (by omega) false)
        · exact fun hgrew => Bool.noConfusion hgrew
      generalize (if ty.size > 0 ∧ v.len+len > v.cap then growTo sys A ty v (v.len+len)
        else enough v A) = g at hplain hpanics
      rcases hplain with ⟨hgrew,hres,hsame⟩ | ⟨hgrew,-,hvec⟩
      · rw [if_pos hgrew]
        cases hbulk : (writeSliceBulk c iter (g.vec.ptr + v.len * ty.size)
            (ElemOp.relocated ty v g.vec m) len).panic with
        | some message =>
          have hmem := (@writeLoop_spec α β ty.size c iter (g.vec.ptr + v.len * ty.size) len 0
            (ElemOp.relocated ty v g.vec m)).1
          rw [Nat.zero_mul, Nat.add_zero] at hmem
          dsimp only
          rw [writeSliceBulk, hmem]
          exact .broken (o := { g with res := .panic message }) _ hsame rfl
        | none =>
          obtain ⟨hall,hgives,hmem⟩ := bulk_completes hbulk
          dsimp only
          rw [hmem]
          exact .done (o := { g with vec := { g.vec with len := v.len+len } }) rfl hres hall hgives
      · rw [if_neg (by rw [hgrew]; exact Bool.false_ne_true)]
        obtain ⟨message,hres⟩ := hpanics hgrew
        exact .refused hvec hres

/-- The session after the call is the session after the method. -/
theorem extendExact_step {s : Session} (hv : s.vec = some (ty,v)) :
    (⟨s.world.take (extendExact c sys s.world.arena m len iter v).1.call,
      some (ty,(extendExact c sys s.world.arena m len iter v).1.vec)⟩ : Session) =
        s.step (.vec sys (extendOp len iter)) := by
  obtain ⟨hcall,hvec⟩ := @extendExact_apply α β ty c sys s.world.arena m len iter v
  rw [hcall, hvec]
  simp only [Session.step, hv]

/-- After a growth that wraps the buffer does not end at the bump pointer. -/
theorem wrapped_unsound {s : Session} (h : s.Inv) (hv : s.vec = some (ty,v))
    (hop : (extendOp len iter).Typed ty)
    (hnext : (s.step (.vec sys (extendOp len iter))).Inv) :
    s.Straight (.vec sys (extendOp len iter)) := by
  intro ty' v' hv' hsize n hn hwraps
  obtain ⟨rfl,rfl⟩ := Prod.mk.inj (Option.some.inj (hv.symm.trans hv'))
  obtain ⟨-,hcall,hptr,hcap⟩ := @wrapped_apply sys s.world.arena ty v n h.world.wf hsize
    (h.fitted ty v hv hsize) _ hop hn hwraps
  have hstep : s.step (.vec sys (extendOp len iter)) =
      ⟨s.world.take ((extendOp len iter).apply sys s.world.arena ty v).call,
        some (ty,((extendOp len iter).apply sys s.world.arena ty v).vec)⟩ := by
    simp only [Session.step, hv]
  rw [hstep] at hnext
  have hend := (hnext.fitted ty _ rfl hsize).end_eq (by
    rw [hcap]
    exact Nat.zero_lt_of_lt hwraps.2.1)
  rw [hcap, hptr] at hend
  change _ = (Outcome.arena _).curPtr at hend
  rw [hcall] at hend
  change _ = (v.ptr + n * ty.size) % 2^64 at hend
  have hbig := hwraps.2.2.2.1
  have hsmall := Nat.mod_lt (v.ptr + n * ty.size) (show 0 < 2^64 by norm_num)
  omega

theorem extend_guarded_iff {s : Session} (h : s.Inv) (hv : s.vec = some (ty,v))
    (hs : Grants sys s.world.arena.blocks) (hlen : len < 2^64) :
    ExtendGuarded c s v m len iter (extendExact c sys s.world.arena m len iter v) ↔
      s.Straight (.vec sys (extendOp len iter)) := by
  have hstep := @extendExact_step α β ty c sys m len iter v s hv
  constructor
  · intro hguarded
    have hsound := hguarded.sound
    rw [hstep] at hsound
    exact wrapped_unsound h hv hlen hsound
  · intro hstraight
    have hend := @extendExact_end α β ty c sys s.world.arena m len iter v h.world.wf hs
      (h.fitted ty v hv)
    have hregistry : (extendExact c sys s.world.arena m len iter v).1.call.arena.dropRegistry =
        s.world.arena.dropRegistry := by
      rw [(@extendExact_apply α β ty c sys s.world.arena m len iter v).1]
      exact apply_registry _
    have hsound := session_step h (c := .vec sys (extendOp len iter))
      ⟨hs,fun ty' v' _ => hlen⟩ hstraight
    rw [← hstep] at hsound
    generalize extendExact c sys s.world.arena m len iter v = o at hend hregistry hsound
    cases hend with
    | nothing hzero =>
      subst hzero
      refine ⟨fun _ => ⟨rfl,[],rfl,fun k x hk => absurd hk (Option.some_ne_none x).symm,?_⟩,
        fun hno => absurd rfl hno,hregistry,hsound⟩
      exact (List.append_nil _).symm
    | @refused o message hvec hres =>
      refine ⟨fun hok => VecRes.noConfusion (hres.symm.trans hok),fun _ => ⟨⟨message,hres⟩,?_,?_⟩,
        hregistry,hsound⟩
      · exact congrArg ArenaVec.len hvec
      · exact congrArg (fun v => elements c m (asSlice v)) hvec
    | @broken o message xs hkept hres =>
      refine ⟨fun hok => VecRes.noConfusion (hres.symm.trans hok),fun _ => ⟨⟨message,hres⟩,hkept,?_⟩,
        hregistry,hsound⟩
      change loads c _ o.vec.ptr o.vec.len = loads c m v.ptr v.len
      rw [hkept, loads_behind, loads_relocated]
    | @done o hgrown hres hall hgives =>
      refine ⟨fun _ => ⟨hgrown,items iter len 0,hall,hgives,?_⟩,fun hno => absurd hres hno,
        hregistry,hsound⟩
      change loads c _ o.vec.ptr o.vec.len = loads c m v.ptr v.len ++ items iter len 0
      rw [hgrown, loads_written _ _ _ _ _ (Or.inl (by rw [hall])), loads_relocated,
        List.take_of_length_le (by rw [length_loads]; exact Nat.le_add_right _ _)]

end vectors

/-- Whatever length an iterator reports and whatever its calls do, the slice methods show only what
it gave and go on soundly, and `extend_exact` does so if and only if its growth does not wrap. -/
theorem iterators_guarded_iff {s : Session} (h : s.Reached Session.Proper) {sys : SystemAlloc}
    (hs : Grants sys s.world.arena.blocks) {α β : Type*} {ty : Ty} (c : Codec ty.size α β)
    (m : ℕ → β) {len : ℕ} (hlen : len < 2^64) (iter : Answers α) :
    (s.vec = none → ∀ fallible, SliceGuarded c s fallible m len iter
      (allocSlice c sys s.world.arena m len iter fallible)) ∧
    ∀ v, s.vec = some (ty,v) →
      (ExtendGuarded c s v m len iter (extendExact c sys s.world.arena m len iter v) ↔
        s.Straight (.vec sys (extendOp len iter))) := by
  have hinv := session_reached h
  exact ⟨fun hclosed _ => slice_guarded hinv hclosed hs hlen,
    fun _ hv => extend_guarded_iff hinv hv hs hlen⟩

def twoBytes : Answers ℕ := fun k => if k < 2 then .item (k+1) else .panics "next panicked"

theorem iterators_guarded_iff_twoBytes : ∃ A, smallArena true 64 = some A ∧
    let s := run Session.step ⟨World.start A,none⟩ pushedCalls
    let o := extendExact byteCodec noMemory s.world.arena (fun _ => 0) 5 twoBytes ⟨4096,1,4⟩
    o.1.res = .panic "next panicked" ∧ o.1.vec = ⟨4096,1,6⟩ ∧ o.2 4098 = 2 ∧
      ExtendGuarded byteCodec s ⟨4096,1,4⟩ (fun _ => 0) 5 twoBytes o := by
  obtain ⟨A,hA⟩ : ∃ A, smallArena true 64 = some A := ⟨_,rfl⟩
  have hreached : Session.Reached Session.Proper
      (run Session.step ⟨World.start A,none⟩ pushedCalls) :=
    session_small (by norm_num) hA pushedCalls
      ⟨⟨trivial,trivial⟩,⟨honest_push,straight_push⟩,trivial⟩
  have hguarded := (iterators_guarded_iff hreached (grants_noMemory _) byteCodec (fun _ => 0)
    (show 5 < 2^64 by norm_num) twoBytes).2 ⟨4096,1,4⟩ (pushed_vec hA)
  refine ⟨A,hA,?_,?_,?_,hguarded.mpr ?_⟩
  · cases hA
    decide +kernel
  · cases hA
    decide +kernel
  · cases hA
    decide +kernel
  · rintro ty v hv - n hn ⟨-,-,-,hbig,-⟩
    obtain ⟨rfl,rfl⟩ := Prod.mk.inj (Option.some.inj ((pushed_vec hA).symm.trans hv))
    have hgoal : n = min (1+5) (2^64-1) := (target_some hn).1
    change 2^64 ≤ 4096 + n*1 at hbig
    omega

/-- An iterator that reports all but one of a word's elements and gives none: the call panics, and
the bump pointer is below its block. -/
theorem pointer_below_block : ∃ (s : Session) (v : ArenaVec),
    s.Reached Session.Honest ∧ s.vec = some (oneByte,v) ∧
    ∃ o, o = extendExact byteCodec noMemory s.world.arena (fun _ => 0) (2^64-2)
        (fun _ => .ended) v ∧
      o.1.res = .panic unwrapPanic ∧ o.1.call.arena.curPtr < s.world.arena.curBase ∧
        ¬ ExtendGuarded byteCodec s v (fun _ => 0) (2^64-2) (fun _ => .ended) o := by
  obtain ⟨A,hA⟩ : ∃ A, smallArena true 64 = some A := ⟨_,rfl⟩
  have hreached : Session.Reached Session.Honest
      (run Session.step ⟨World.start A,none⟩ pushedCalls) :=
    session_small (by norm_num) hA pushedCalls ⟨trivial,honest_push,trivial⟩
  have hbelow : (extendExact byteCodec noMemory
      (run Session.step ⟨World.start A,none⟩ pushedCalls).world.arena (fun _ => 0) (2^64-2)
      (fun _ => .ended) ⟨4096,1,4⟩).1.call.arena.curPtr <
        (run Session.step ⟨World.start A,none⟩ pushedCalls).world.arena.curBase := by
    cases hA
    decide +kernel
  refine ⟨_,_,hreached,pushed_vec hA,_,rfl,?_,hbelow,fun hguarded => ?_⟩
  · cases hA
    decide +kernel
  · have hbase := hguarded.sound.world.wf.base_le
    revert hbase
    cases hA
    decide +kernel

end FastArena.LyingIterator
