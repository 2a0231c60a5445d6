import FastArena.CheckedArena

/-!
# The representation invariant

What the fields of an arena have to do with each other in every state of a run,
and that it keeps all unchecked accesses in bounds. The one thing that breaks it
is a panic of the block list, which comes after the count of reserved bytes was
raised for the block that is lost.
-/

set_option autoImplicit false

namespace FastArena.Representation
open FastArena.MachineWord FastArena.ByteSpan FastArena.ArenaBlock FastArena.InlineStorage
  FastArena.DropTracking FastArena.ArenaCore FastArena.ArenaInvariant FastArena.RawRequest
  FastArena.ArenaSweep FastArena.ArenaRequests FastArena.ArenaTransaction FastArena.LabelledRun
  FastArena.ArenaWorld FastArena.ListBuffer

structure Represents (A : Arena) : Prop where
  current_le : A.current ≤ A.highWaterMark
  high_lt : A.highWaterMark < A.blocks.len
  largest_lt : A.largestRemainingIdx < A.blocks.len
  base_eq : A.curBase = (A.blocks.get A.current).base
  end_eq : A.curEnd = (A.blocks.get A.current).base + (A.blocks.get A.current).capacity
  base_le : A.curBase ≤ A.curPtr
  ptr_le : A.curPtr ≤ A.curEnd
  offset_le : ∀ i < A.blocks.len, (A.blocks.get i).offset ≤ (A.blocks.get i).capacity
  tail : ∀ i < A.blocks.len, A.current < i → (A.blocks.get i).offset = 0
  reserved : A.bytesReserved = totalCapacity A.blocks

theorem represents_of_wf {A : Arena} (h : Wf A) : Represents A where
  current_le := h.current_le
  high_lt := h.high_lt
  largest_lt := h.largest_lt
  base_eq := h.base_eq
  end_eq := h.end_eq.trans (by rw [h.base_eq])
  base_le := h.base_le
  ptr_le := h.ptr_le
  offset_le := fun i hi => (h.laid.placed i hi).offset_le
  tail := h.tail
  reserved := h.reserved

/-- With every index and every room checked, nothing fails; and a reset empties every block. -/
structure InBounds (w : World) : Prop where
  requests : ∀ fallible sys size align, Grants sys w.arena.blocks → PowerOfTwo align →
    size < 2^64 → CheckedArena.rawInner false fallible sys w.arena size align =
      .ok (ListBuffer.rawInner fallible sys w.arena size align)
  rewinds : ∀ boom, ∀ m ∈ w.marks,
    CheckedArena.rewind boom w.arena m.cp = .ok (w.arena.rewind boom m.cp)
  resets : ∀ boom, CheckedArena.reset boom w.arena = .ok (w.arena.reset boom)
  emptied : ∀ boom, (w.arena.reset boom).panic = none →
    ∀ i < (w.arena.reset boom).arena.blocks.len, ((w.arena.reset boom).arena.blocks.get i).offset = 0

theorem sane_of_inv {w : World} (h : Inv w) : Sane w where
  wf := by
    rw [show mended w.arena = w.arena from mended_eq h.wf]
    exact h.wf
  recallable := h.recallable
  opened := h.opened

theorem inBounds_of_inv {w : World} (h : Inv w) : InBounds w where
  requests := fun fallible sys size align hs hpow hsize =>
    CheckedArena.rawInner_ok (sane_of_inv h).wf hs hpow hsize fallible nofun
  rewinds := fun boom m hm => CheckedArena.rewind_ok (sane_of_inv h).wf boom (h.recallable m hm)
  resets := fun boom => CheckedArena.reset_ok (sane_of_inv h).wf boom
  emptied := by
    intro boom hpanic i hi
    obtain ⟨-,-,⟨hno,-,-⟩ | ⟨-,-,hemptied⟩⟩ := reset_cases boom h.wf
    · exact nomatch hpanic.symm.trans hno
    · rw [hemptied.len_eq] at hi
      exact hemptied.empty i hi

section steps
variable {w : World}

theorem serve_eq (h : Wf w.arena) {sys : SystemAlloc} {r : Request} (hr : r.Typed)
    (hkept : ∀ size align, r.kind.demand = some (size,align) →
      ¬ Lost r.fallible sys w.arena size align) :
    serve sys w.arena r = r.serve sys w.arena := by
  have hend : w.arena.curEnd < 2^64 :=
    lt_of_le_of_lt (curEnd_le h) (by norm_num [addressTop])
  unfold serve
  rcases serve_demand h sys hr with ⟨hd,-⟩ | ⟨size,align,hd,heq⟩
  · rw [hd]
  · rw [hd, heq]
    dsimp only
    rw [rawInner_eq hend (hkept size align hd)]

/-- A step that loses no block is one of the model without a buffer. -/
theorem step_eq (h : Inv w) {op : Op} (hop : Honest w op) (hkept : ¬ Loses w op) :
    step w op = w.step op := by
  cases op with
  | request sys r =>
    have hserve : serve sys w.arena r = r.serve sys w.arena := serve_eq h.wf hop.2
      (fun size align hd hlost => hkept ⟨sys,r,size,align,hd,hlost,Or.inl rfl⟩)
    unfold step World.step
    dsimp only
    rw [hserve]
  | guarded sys r =>
    unfold step World.step
    cases hopened : w.opened with
    | nil => rfl
    | cons f rest =>
      have hguarded : guardedServe f.txn sys w.arena r = f.txn.serve sys w.arena r := by
        unfold guardedServe
        rcases txn_serve f.txn sys w.arena r with ⟨hpass,heq⟩ | ⟨hstop,-⟩
        · rw [if_pos hpass, heq]
          exact serve_eq h.wf hop.2 (fun size align hd hlost =>
            hkept ⟨sys,r,size,align,hd,hlost,Or.inr ⟨rfl,f,rest,hopened,hpass.1,hpass.2⟩⟩)
        · rw [if_neg hstop]
      dsimp only
      rw [hguarded]
  | _ => rfl

/-- A lost block leaves more bytes reserved than the blocks have. -/
theorem serve_lost (h : Wf w.arena) {sys : SystemAlloc} (hs : Grants sys w.arena.blocks)
    {r : Request} (hr : r.Typed) {size align : ℕ} (hd : r.kind.demand = some (size,align))
    (hlost : Lost r.fallible sys w.arena size align) :
    ¬ Represents (serve sys w.arena r).arena := by
  obtain ⟨hpow,hsize⟩ := demand_typed hr hd
  obtain ⟨message,A',n,k,hraw,hspoilt⟩ := rawInner_lost h.growth_min hs hpow hsize hlost
  have harena : (serve sys w.arena r).arena = A' := by
    unfold serve
    rw [hd]
    dsimp only
    rw [hraw]
    rfl
  have htotal : totalCapacity w.arena.finishSlowPath.blocks = totalCapacity w.arena.blocks :=
    totalCapacity_congr (finishSlowPath_len _) (finishSlowPath_grown h)
  have hle : totalCapacity w.arena.blocks ≤ 2^63 := totalCapacity_le h.laid
  have hpos := hspoilt.lost_pos
  have hbound := hspoilt.lost_le
  intro hrep
  have hreserved := hrep.reserved
  rw [harena, hspoilt.after] at hreserved
  change wadd w.arena.bytesReserved k = totalCapacity w.arena.finishSlowPath.blocks at hreserved
  rw [htotal, h.reserved] at hreserved
  unfold wadd at hreserved
  omega

theorem step_lost (h : Inv w) {op : Op} (hop : Honest w op) (hlost : Loses w op) :
    ¬ Represents (step w op).arena := by
  obtain ⟨sys,r,size,align,hd,hlost,rfl | ⟨rfl,f,rest,hopened,hoffered,hok⟩⟩ := hlost
  · exact serve_lost h.wf hop.1 hop.2 hd hlost
  · have harena : (step w (.guarded sys r)).arena = (serve sys w.arena r).arena := by
      simp only [step, hopened]
      change (guardedServe f.txn sys w.arena r).arena = _
      rw [guardedServe, if_pos ⟨hoffered,hok⟩]
    rw [harena]
    exact serve_lost h.wf hop.1 hop.2 hd hlost

end steps

def Intact (w : World) : Prop := Represents w.arena ∧ InBounds w

/-- Over any run from a new arena, every state is intact if and only if no step loses a block to a
block list that was refused its buffer. -/
theorem intact_iff {sys : SystemAlloc} {feature : Bool} {initialBytes : ℕ} {A : Arena}
    (hs : Grants sys (InlineVec.new : Blocks))
    (hA : Arena.withCapacity sys feature initialBytes = some A) (ops : List Op)
    (hops : Along step Honest (World.start A) ops) :
    Always step Intact (World.start A) ops ↔
      Along step (fun w op => ¬ Loses w op) (World.start A) ops := by
  obtain ⟨hwf,-,-,-,-,hregistry⟩ := wf_withCapacity hs hA
  have hstart : Inv (World.start A) :=
    inv_start hwf (by rw [hregistry, DropRegistry.entries_new])
  have hintact : ∀ {w : World}, Inv w → Intact w :=
    fun h => ⟨represents_of_wf h.wf,inBounds_of_inv h⟩
  rw [always_iff, and_iff_right (hintact hstart)]
  apply along_congr_while step Honest Inv _ _ (World.start A) ops hstart hops
  · intro w op hinv hop
    constructor
    · exact fun h hlost => step_lost hinv hop hlost h.1
    · intro hkept
      rw [step_eq hinv hop hkept]
      exact hintact (inv_step hinv hop)
  · intro w op hinv hop hkept
    rw [step_eq hinv hop hkept]
    exact inv_step hinv hop

def fillCall (i : ℕ) : Op := .request (oneBlock (2^(6+i)) (2^20*i)) ⟨.raw (2^(6+i)) 1,true⟩

theorem honest_fillCall {w : World} {i : ℕ} (hi : 0 < i) (hle : i ≤ 8)
    (hbelow : ∀ j < w.arena.blocks.len,
      (w.arena.blocks.get j).base + (w.arena.blocks.get j).capacity ≤ 2^20*i) :
    Honest w (fillCall i) := by
  have hcap : 2^(6+i) ≤ 2^14 := Nat.pow_le_pow_right (by norm_num) (by omega)
  have hdvd : minBlockAlign ∣ 2^20*i := dvd_mul_of_dvd_left (by norm_num [minBlockAlign]) i
  have htop : 2^20*i + 2^(6+i) ≤ addressTop := by
    unfold addressTop
    omega
  have hsize : 2^(6+i) < 2^64 := by omega
  exact ⟨grants_oneBlock (by positivity) hdvd htop
    (fun j hj => apart_symm (apart_of_le (hbelow j hj))),hsize⟩

def refillCalls : List Op := [.checkpoint,fillCall 1,.rewind quiet 1,.reset quiet]

theorem intact_iff_refill : ∃ A, smallArena true 64 = some A ∧
    Always step Intact (World.start A) refillCalls ∧
      (run step (World.start A) refillCalls).arena.blocks.len = 2 := by
  obtain ⟨A,hA⟩ : ∃ A, smallArena true 64 = some A := ⟨_,rfl⟩
  have hops : Along step Honest (World.start A) refillCalls := by
    refine ⟨trivial,honest_fillCall (by norm_num) (by norm_num) ?_,trivial,trivial,trivial⟩
    cases hA
    decide +kernel
  refine ⟨A,hA,(intact_iff (grants_small (by norm_num)) hA _ hops).mpr
    ⟨?_,?_,?_,?_,trivial⟩,?_⟩
  · rintro ⟨sys,r,size,align,-,-,hop | ⟨hop,-⟩⟩ <;> cases hop
  · rintro ⟨sys,r,size,align,hd,hlost,hop | ⟨hop,-⟩⟩
    · cases hop
      cases hd
      revert hlost
      cases hA
      decide +kernel
    · cases hop
  · rintro ⟨sys,r,size,align,-,-,hop | ⟨hop,-⟩⟩ <;> cases hop
  · rintro ⟨sys,r,size,align,-,-,hop | ⟨hop,-⟩⟩ <;> cases hop
  · cases hA
    decide +kernel

def sevenFills : List Op := (List.range 7).map (fun i => fillCall (i+1))

def overfillCalls : List Op := sevenFills ++ [fillCall 8]

theorem overfill_honest {A : Arena} (hA : smallArena true 64 = some A) :
    Along step Honest (World.start A) sevenFills ∧
      Honest (run step (World.start A) sevenFills) (fillCall 8) := by
  refine ⟨⟨honest_fillCall ?_ ?_ ?_,honest_fillCall ?_ ?_ ?_,honest_fillCall ?_ ?_ ?_,
    honest_fillCall ?_ ?_ ?_,honest_fillCall ?_ ?_ ?_,honest_fillCall ?_ ?_ ?_,
    honest_fillCall ?_ ?_ ?_,trivial⟩,honest_fillCall ?_ ?_ ?_⟩
  all_goals
    cases hA
    decide +kernel

/-- The ninth block is granted, the buffer for the list of nine is not. -/
theorem ninth_block_lost : ∃ w, Visited w ∧ w.arena.blocks.len = 8 ∧
    totalCapacity w.arena.blocks = 16320 ∧ w.arena.bytesReserved = 32704 ∧ ¬ Intact w := by
  obtain ⟨A,hA⟩ : ∃ A, smallArena true 64 = some A := ⟨_,rfl⟩
  obtain ⟨hseven,heighth⟩ := overfill_honest hA
  have hops : Along step Honest (World.start A) overfillCalls :=
    (along_append step Honest _ _ _).mpr ⟨hseven,heighth,trivial⟩
  have htotal : totalCapacity (run step (World.start A) overfillCalls).arena.blocks = 16320 := by
    cases hA
    decide +kernel
  have hreserved : (run step (World.start A) overfillCalls).arena.bytesReserved = 32704 := by
    cases hA
    decide +kernel
  refine ⟨_,⟨_,true,64,A,overfillCalls,grants_small (by norm_num),hA,hops,rfl⟩,
    ?_,htotal,hreserved,?_⟩
  · cases hA
    decide +kernel
  · intro hintact
    have heq := hintact.1.reserved
    omega

end FastArena.Representation
