import FastArena.CheckedArena

/-!
# What the fallible calls may raise

The `try_` methods with every check made. Some arithmetic on their slow path is
unchecked, one sum ends in `expect`, and the block list may panic over its own
buffer; from any arena met on a run, a call answers with `Some` or `None` if and
only if none of these comes up.
-/

set_option autoImplicit false

namespace FastArena.FallibleCalls
open FastArena.MachineWord FastArena.ByteSpan FastArena.ArenaBlock FastArena.InlineStorage
  FastArena.DropTracking FastArena.ArenaCore FastArena.ArenaInvariant FastArena.RawRequest
  FastArena.ArenaRequests FastArena.LabelledRun FastArena.ArenaWorld FastArena.ListBuffer
  FastArena.CheckedArena

inductive TryCall where
  | raw (size align : ℕ)
  | zeroed (size align : ℕ)
  | cacheAligned (size : ℕ)
  | sliceCopy (ty : Ty) (len : ℕ)
  | str (len : ℕ)

namespace TryCall

def kind : TryCall → Kind
  | .raw size align => .raw size align
  | .zeroed size align => .zeroed size align
  | .cacheAligned size => .cacheAligned size
  | .sliceCopy ty len => .sliceCopy ty len
  | .str len => .str len

def Typed : TryCall → Prop
  | .raw size align => size < 2^64 ∧ PowerOfTwo align
  | .zeroed size align => size < 2^64 ∧ PowerOfTwo align
  | .cacheAligned size => size < 2^64
  | .sliceCopy _ len => len < 2^64
  | .str len => len < 2^63

end TryCall

variable (sys : SystemAlloc) (A : Arena)

def tryAllocRaw (size align : ℕ) : Checked (Ret × Arena) :=
  if PowerOfTwo align then
    if size = 0 then .ok (.ptr 1,A) else CheckedArena.rawInner true true sys A size align
  else .ok (.panic alignPanic,A)

-- The zeroes are written after the region was carved.
def tryAllocZeroed (size align : ℕ) : Checked (Ret × Arena) := tryAllocRaw sys A size align

def tryAllocCacheAligned (size : ℕ) : Checked (Ret × Arena) :=
  tryAllocRaw sys A size cacheLineSize

def tryAllocSliceCopy (ty : Ty) (len : ℕ) : Checked (Ret × Arena) :=
  if len = 0 then .ok (.ptr ty.align,A)
  else match checkedMul ty.size len with
    | none => .ok (.none,A)
    | some total => CheckedArena.rawInner true true sys A total ty.align

def tryAllocStr (len : ℕ) : Checked (Ret × Arena) :=
  if len = 0 then .ok (.ptr 1,A)
  else match checkedAdd A.curPtr len with
    | none => .ok (.none,A)
    | some newEnd =>
      if newEnd ≤ A.curEnd then .ok (.ptr A.curPtr,{ A with curPtr := wadd A.curPtr len })
      else CheckedArena.rawInner true true sys A len 1

def TryCall.call : TryCall → Checked (Ret × Arena)
  | .raw size align => tryAllocRaw sys A size align
  | .zeroed size align => tryAllocZeroed sys A size align
  | .cacheAligned size => tryAllocCacheAligned sys A size
  | .sliceCopy ty len => tryAllocSliceCopy sys A ty len
  | .str len => tryAllocStr sys A len

variable {sys A}

/-- `Some` or `None`: nothing overflowed on the way and nothing panicked. -/
def Answers (r : Checked (Ret × Arena)) : Prop :=
  ∃ ret A', r = .ok (ret,A') ∧ ∀ message, ret ≠ .panic message

structure Passable (sys : SystemAlloc) (A : Arena) (size align : ℕ) : Prop where
  flushed : A.bytesAllocated + A.curOffset < 2^64
  kept : A.retained size align ≠ none → A.bytesAllocated + A.curOffset + size < 2^64
  sized : A.retained size align = none → size + (align-1) < 2^64 ∧ align*2 < 2^64
  granted : A.retained size align = none → ∀ blockSize B,
    A.nextBlockFor size align = some (blockSize,B) → Block.tryNew sys blockSize align ≠ none →
      (A.bytesReserved + blockSize < 2^64 ∧ A.bytesAllocated + A.curOffset + size < 2^64) ∧
        pushPanic sys A.blocks = none

/-- The call is answered at once, fits the current block, or gets through the slow path. -/
def Clear (sys : SystemAlloc) (A : Arena) (c : TryCall) : Prop :=
  ∀ size align, c.kind.demand = some (size,align) →
    Fits A size align ∨ Overflows A size align ∨ Passable sys A size align

section raw
variable {size align : ℕ}

theorem inRange_of_passable (h : Passable sys A size align) : InRange sys A size align where
  flushed := h.flushed
  kept := h.kept
  doubled := fun hnone _ => (h.sized hnone).2
  counted := fun hnone blockSize B hn hnew => (h.granted hnone blockSize B hn hnew).1

theorem newBlock_quiet {B : Arena} (hsum : B.nextBlockFor size align ≠ none)
    (hpush : ∀ blockSize C, B.nextBlockFor size align = some (blockSize,C) →
      Block.tryNew sys blockSize align ≠ none → pushPanic sys C.blocks = none)
    (message : String) :
    (ListBuffer.newBlock .none .none sys B size align).1 ≠ .panic message := by
  unfold ListBuffer.newBlock
  cases hn : B.nextBlockFor size align with
  | none => exact absurd hn hsum
  | some next =>
    obtain ⟨blockSize,C⟩ := next
    dsimp only
    cases hnew : Block.tryNew sys blockSize align with
    | none => nofun
    | some b =>
      dsimp only
      cases b.tryAlloc size align with
      | none => nofun
      | some found =>
        dsimp only
        rw [hpush blockSize C hn (by rw [hnew]; nofun)]
        nofun

theorem not_answers_error (e : Fault) : ¬ Answers (.error e) := by
  rintro ⟨ret,A',h,-⟩
  cases h

theorem not_answers_panic (message : String) (B : Arena) :
    ¬ Answers (.ok (.panic message,B)) := by
  rintro ⟨ret,A',h,hno⟩
  cases h
  exact hno message rfl

theorem newBlock_answers {B : Arena} (h : Wf (mended B)) (hs : Grants sys B.blocks)
    (hpow : PowerOfTwo align) (hsize : size < 2^64)
    (hans : Answers (CheckedArena.newBlock true .none .none sys B size align)) :
    (size + (align-1) < 2^64 ∧ align*2 < 2^64) ∧ ∀ blockSize C,
      B.nextBlockFor size align = some (blockSize,C) → Block.tryNew sys blockSize align ≠ none →
        (B.bytesReserved + blockSize < 2^64 ∧ B.bytesAllocated + size < 2^64) ∧
          pushPanic sys B.blocks = none := by
  have hgrowth : minBlockSize ≤ B.nextBlockSize := h.growth_min
  unfold CheckedArena.newBlock at hans
  cases hworst : checkedAdd size (wsub align 1) with
  | none =>
    have hnone : B.nextBlockFor size align = none := by
      unfold Arena.nextBlockFor
      rw [hworst]
      rfl
    rw [nextBlockFor_ok hpow (fun _ hne => absurd hworst hne), ok_bind, hnone] at hans
    exact absurd hans (not_answers_panic _ _)
  | some worst =>
    have hsum : size + (align-1) < 2^64 := by
      by_contra hle
      exact nomatch hworst.symm.trans ((checkedAdd_align hpow).mpr (Nat.not_lt.mp hle))
    have htwice : align*2 < 2^64 := by
      by_contra hle
      rw [nextBlockFor_error hpow hworst (Nat.not_lt.mp hle), error_bind] at hans
      exact not_answers_error _ hans
    refine ⟨⟨hsum,htwice⟩,?_⟩
    intro blockSize C hn hgranted
    obtain ⟨b,hnew⟩ := Option.ne_none_iff_exists'.mp hgranted
    obtain ⟨hfit,n,-,-,rfl⟩ := nextBlockFor_some hgrowth hn
    obtain ⟨-,-,-,-,htry⟩ := freshBlock hs hpow hsize hfit hnew
    rw [nextBlockFor_ok hpow (fun _ _ => htwice), ok_bind, hn] at hans
    dsimp only at hans
    rw [hnew] at hans
    dsimp only at hans
    rw [tryAlloc_ok hpow (fresh_top hs hpow hnew), ok_bind, htry] at hans
    dsimp only at hans
    have hreserved : B.bytesReserved + blockSize < 2^64 := by
      by_contra hle
      have hadd : add true B.bytesReserved blockSize = .error .overflow :=
        if_pos ⟨rfl,Nat.not_lt.mp hle⟩
      rw [hadd, error_bind] at hans
      exact not_answers_error _ hans
    rw [add_ok (fun _ => hreserved), ok_bind] at hans
    have hbytes : B.bytesAllocated + size < 2^64 := by
      by_contra hle
      have hadd : add true B.bytesAllocated size = .error .overflow :=
        if_pos ⟨rfl,Nat.not_lt.mp hle⟩
      rw [hadd, error_bind] at hans
      exact not_answers_error _ hans
    rw [add_ok (fun _ => hbytes), ok_bind] at hans
    refine ⟨⟨hreserved,hbytes⟩,?_⟩
    cases hpush : pushPanic sys B.blocks with
    | none => rfl
    | some message =>
      rw [hpush] at hans
      exact absurd hans (not_answers_panic _ _)

theorem slow_flushed (h : Wf (mended A)) (hpow : PowerOfTwo align)
    (hbytes : A.bytesAllocated + A.curOffset < 2^64) (oom misfit : Ret) :
    slow true oom misfit sys A size align =
      match A.retained size align with
      | some (i,p,delta,block) => do
        let bytes ← add true A.finishSlowPath.bytesAllocated delta
        let blocks ← setBlock A.finishSlowPath.blocks i (fun _ => block)
        let B ← setCurrentBlock true
          { A.finishSlowPath with bytesAllocated := bytes, blocks := blocks } i
        return (.ptr p,B)
      | none => CheckedArena.newBlock true oom misfit sys A.finishSlowPath size align := by
  unfold slow
  rw [finishSlowPath_ok h (fun _ => hbytes), ok_bind, retained_ok (sane_finishSlowPath h) hpow,
    ok_bind]
  cases hfound : A.retained size align with
  | none => simp only [retained_finishSlowPath, hfound]
  | some found => simp only [retained_finishSlowPath, hfound]

theorem passable_of_answers (h : Wf (mended A)) (hs : Grants sys A.blocks)
    (hpow : PowerOfTwo align) (hsize : size < 2^64)
    (hans : Answers (slow true .none .none sys A size align)) : Passable sys A size align := by
  have hbytes : A.bytesAllocated + A.curOffset < 2^64 := by
    by_contra hle
    unfold slow at hans
    rw [finishSlowPath_error h (Nat.not_lt.mp hle), error_bind] at hans
    exact not_answers_error _ hans
  have hcount : A.finishSlowPath.bytesAllocated = A.bytesAllocated + A.curOffset := wadd_eq hbytes
  rw [slow_flushed h hpow hbytes] at hans
  cases hfound : A.retained size align with
  | some found =>
    obtain ⟨i,p,delta,b⟩ := found
    have hretained : (mended A).retained size align = some (i,p,delta,b) := hfound
    obtain ⟨-,-,-,-,rfl,-,-⟩ := retained_some h hpow hsize hretained
    have hkept : A.bytesAllocated + A.curOffset + delta < 2^64 := by
      by_contra hle
      have hadd : add true A.finishSlowPath.bytesAllocated delta = .error .overflow :=
        if_pos ⟨rfl,by rw [hcount]; exact Nat.not_lt.mp hle⟩
      rw [hfound] at hans
      dsimp only at hans
      rw [hadd, error_bind] at hans
      exact not_answers_error _ hans
    refine ⟨hbytes,fun _ => hkept,?_,?_⟩
    · exact fun hnone => nomatch hfound.symm.trans hnone
    · exact fun hnone => nomatch hfound.symm.trans hnone
  | none =>
    rw [hfound] at hans
    obtain ⟨hsized,hgranted⟩ := newBlock_answers (sane_finishSlowPath h)
      (grants_finishSlowPath h hs) hpow hsize hans
    refine ⟨hbytes,fun hne => absurd hfound hne,fun _ => hsized,?_⟩
    intro _ blockSize B hn hnew
    rw [← hcount, ← pushPanic_finishSlowPath]
    refine hgranted blockSize { A.finishSlowPath with nextBlockSize := B.nextBlockSize } ?_ hnew
    rw [nextBlockFor_finishSlowPath, hn]
    rfl

theorem answers_of_passable (h : Wf (mended A)) (hs : Grants sys A.blocks)
    (hpow : PowerOfTwo align) (hsize : size < 2^64) (hpass : Passable sys A size align) :
    Answers (slow true .none .none sys A size align) := by
  rw [slow_ok h hs hpow hsize _ _ (fun _ => inRange_of_passable hpass)]
  refine ⟨_,_,rfl,?_⟩
  rw [retained_finishSlowPath]
  cases hfound : A.retained size align with
  | some found => nofun
  | none =>
    apply newBlock_quiet
    · rw [nextBlockFor_finishSlowPath, ne_eq, Option.map_eq_none_iff]
      intro hnone
      have hworst : checkedAdd size (wsub align 1) = none := by
        unfold Arena.nextBlockFor at hnone
        exact Option.map_eq_none_iff.mp hnone
      exact absurd (hpass.sized hfound).1 (Nat.not_lt.mpr ((checkedAdd_align hpow).mp hworst))
    · intro blockSize C hn hnew
      rw [nextBlockFor_finishSlowPath] at hn
      obtain ⟨next,hnext,heq⟩ := Option.map_eq_some_iff.mp hn
      obtain ⟨rfl,rfl⟩ := Prod.mk.inj heq
      rw [pushPanic_finishSlowPath]
      exact (hpass.granted hfound next.1 next.2 hnext hnew).2

/-- From an arena that is sane, a raw request answers exactly if it needs no slow path or gets
through it. -/
theorem rawInner_answers (h : Wf (mended A)) (hs : Grants sys A.blocks) (hpow : PowerOfTwo align)
    (hsize : size < 2^64) : Answers (CheckedArena.rawInner true true sys A size align) ↔
      Fits A size align ∨ Overflows A size align ∨ Passable sys A size align := by
  unfold CheckedArena.rawInner
  dsimp only
  rw [rawInnerWith_path h hpow]
  by_cases hfits : Fits A size align
  · rw [if_pos hfits]
    exact iff_of_true ⟨_,_,rfl,nofun⟩ (Or.inl hfits)
  · rw [if_neg hfits]
    by_cases hover : Overflows A size align
    · rw [if_pos hover]
      exact iff_of_true ⟨_,_,rfl,nofun⟩ (Or.inr (Or.inl hover))
    · rw [if_neg hover]
      constructor
      · exact fun hans => Or.inr (Or.inr (passable_of_answers h hs hpow hsize hans))
      · rintro (hyes | hyes | hpass)
        · exact absurd hyes hfits
        · exact absurd hyes hover
        · exact answers_of_passable h hs hpow hsize hpass

theorem answers_ptr (p : ℕ) (B : Arena) : Answers (.ok (.ptr p,B)) := ⟨_,_,rfl,nofun⟩

theorem answers_none (B : Arena) : Answers (.ok (.none,B)) := ⟨_,_,rfl,nofun⟩

theorem clear_none {c : TryCall} (hd : c.kind.demand = none) : Clear sys A c :=
  fun _ _ hsome => nomatch hd.symm.trans hsome

theorem clear_some {c : TryCall} (hd : c.kind.demand = some (size,align)) : Clear sys A c ↔
    Fits A size align ∨ Overflows A size align ∨ Passable sys A size align := by
  constructor
  · exact fun h => h size align hd
  · intro h size' align' hd'
    cases hd.symm.trans hd'
    exact h

theorem tryAllocRaw_answers (h : Wf (mended A)) (hs : Grants sys A.blocks)
    (hpow : PowerOfTwo align) (hsize : size < 2^64) {c : TryCall}
    (hd : c.kind.demand = if size ≠ 0 then some (size,align) else none) :
    Answers (tryAllocRaw sys A size align) ↔ Clear sys A c := by
  unfold tryAllocRaw
  rw [if_pos hpow]
  by_cases hzero : size = 0
  · rw [if_neg (fun hne => hne hzero)] at hd
    rw [if_pos hzero]
    exact iff_of_true (answers_ptr _ _) (clear_none hd)
  · rw [if_pos hzero] at hd
    rw [if_neg hzero, clear_some hd, rawInner_answers h hs hpow hsize]

theorem tryAllocSliceCopy_answers (h : Wf (mended A)) (hs : Grants sys A.blocks) (ty : Ty)
    (len : ℕ) : Answers (tryAllocSliceCopy sys A ty len) ↔ Clear sys A (.sliceCopy ty len) := by
  unfold tryAllocSliceCopy
  by_cases hlen : len = 0
  · have hd : (TryCall.sliceCopy ty len).kind.demand = none := if_pos hlen
    rw [if_pos hlen]
    exact iff_of_true (answers_ptr _ _) (clear_none hd)
  · have hd : (TryCall.sliceCopy ty len).kind.demand =
        (checkedMul ty.size len).map (·,ty.align) := if_neg hlen
    rw [if_neg hlen]
    cases htotal : checkedMul ty.size len with
    | none =>
      rw [htotal] at hd
      exact iff_of_true (answers_none _) (clear_none hd)
    | some total =>
      obtain ⟨rfl,hlt⟩ := checkedMul_some htotal
      rw [htotal] at hd
      rw [clear_some hd]
      exact rawInner_answers h hs ty.align_pow hlt

theorem tryAllocStr_answers (h : Wf (mended A)) (hs : Grants sys A.blocks) {len : ℕ}
    (hlen : len < 2^63) : Answers (tryAllocStr sys A len) ↔ Clear sys A (.str len) := by
  have htop : (mended A).curEnd ≤ 2^63 := curEnd_le h
  have hptr : A.curPtr ≤ (mended A).curEnd := h.ptr_le
  change A.curEnd ≤ 2^63 at htop
  change A.curPtr ≤ A.curEnd at hptr
  unfold tryAllocStr
  by_cases hzero : len = 0
  · have hd : (TryCall.str len).kind.demand = none := if_pos hzero
    rw [if_pos hzero]
    exact iff_of_true (answers_ptr _ _) (clear_none hd)
  · have hd : (TryCall.str len).kind.demand = some (len,1) := if_neg hzero
    have hadd : checkedAdd A.curPtr len = some (A.curPtr + len) := if_pos (by omega)
    rw [if_neg hzero, clear_some hd, hadd]
    dsimp only
    by_cases hroom : A.curPtr + len ≤ A.curEnd
    · have hfits : Fits A len 1 := by
        have hup : ArenaBlock.alignUp A.curPtr 1 = A.curPtr := alignUp_one (by omega)
        unfold Fits
        rw [hup]
        exact ⟨by norm_num [minBlockAlign],hroom⟩
      rw [if_pos hroom]
      exact iff_of_true (answers_ptr _ _) (Or.inl hfits)
    · rw [if_neg hroom]
      exact rawInner_answers h hs powerOfTwo_one (lt_trans hlen (by norm_num))

end raw

/-- From any arena met on a run, and whatever the system allocator does, a fallible call answers
with `Some` or `None` without any overflow on the way if and only if it is clear. -/
theorem try_answers_iff {w : World} (h : Visited w) {sys : SystemAlloc}
    (hs : Grants sys w.arena.blocks) {c : TryCall} (hc : c.Typed) :
    Answers (c.call sys w.arena) ↔ Clear sys w.arena c := by
  have hsane := (sane_visited h).wf
  have hdemand : ∀ {size align : ℕ}, PowerOfTwo align →
      (if PowerOfTwo align ∧ size ≠ 0 then some (size,align) else none) =
        if size ≠ 0 then some (size,align) else none := by
    intro size align hpow
    exact if_congr (and_iff_right hpow) rfl rfl
  cases c with
  | raw size align => exact tryAllocRaw_answers hsane hs hc.2 hc.1 (hdemand hc.2)
  | zeroed size align => exact tryAllocRaw_answers hsane hs hc.2 hc.1 (hdemand hc.2)
  | cacheAligned size => exact tryAllocRaw_answers hsane hs minBlockAlign_pow hc rfl
  | sliceCopy ty len => exact tryAllocSliceCopy_answers hsane hs ty len
  | str len => exact tryAllocStr_answers hsane hs hc

theorem visited_small {capacity : ℕ} {A : Arena} (hcap : capacity ≤ 2^62)
    (hA : smallArena true capacity = some A) : Visited (World.start A) :=
  ⟨_,true,capacity,A,[],grants_small hcap,hA,trivial,rfl⟩

theorem try_answers_iff_second : ∃ A, smallArena true 64 = some A ∧
    ¬ Fits A 128 1 ∧ Answers (tryAllocRaw (oneBlock 128 8192) A 128 1) := by
  obtain ⟨A,hA⟩ : ∃ A, smallArena true 64 = some A := ⟨_,rfl⟩
  have hs : Grants (oneBlock 128 8192) (World.start A).arena.blocks := by
    apply grants_second (by norm_num [minBlockAlign]) (by norm_num [addressTop])
    all_goals
      cases hA
      decide +kernel
  have hc : (TryCall.raw 128 1).Typed := ⟨by norm_num,by decide⟩
  refine ⟨A,hA,?_,(try_answers_iff (visited_small (by norm_num) hA) hs hc).mpr
    ((clear_some rfl).mpr (Or.inr (Or.inr ⟨?_,?_,?_,?_⟩)))⟩
  · cases hA
    decide +kernel
  · cases hA
    decide +kernel
  · intro _
    cases hA
    decide +kernel
  · intro _
    norm_num
  · intro _ blockSize B hn _
    have hsize : ((World.start A).arena.nextBlockFor 128 1).map Prod.fst = some 128 := by
      cases hA
      decide +kernel
    rw [hn] at hsize
    obtain rfl : blockSize = 128 := Option.some.inj hsize
    cases hA
    decide +kernel

/-- The sum of the largest size and an alignment above that of the blocks is expected to be a
word. -/
theorem try_panics : ∃ A, smallArena true 64 = some A ∧ Visited (World.start A) ∧
    ¬ Answers (tryAllocRaw noMemory A (2^64-1) 128) := by
  obtain ⟨A,hA⟩ : ∃ A, smallArena true 64 = some A := ⟨_,rfl⟩
  have hvisited := visited_small (by norm_num) hA
  refine ⟨A,hA,hvisited,?_⟩
  intro hans
  have hd : (TryCall.raw (2^64-1) 128).kind.demand = some (2^64-1,128) := by decide +kernel
  have hclear := (tryAllocRaw_answers (sane_visited hvisited).wf (grants_noMemory _)
    (by decide) (by norm_num) hd).mp hans
  rcases (clear_some hd).mp hclear with hfits | hover | hpass
  · exact absurd hfits.1 (by norm_num [minBlockAlign])
  · exact absurd hover.1 (by norm_num [minBlockAlign])
  · have hnone : A.retained (2^64-1) 128 = none := if_pos (by norm_num [minBlockAlign])
    have hsum := (hpass.sized hnone).1
    norm_num at hsum

end FastArena.FallibleCalls
