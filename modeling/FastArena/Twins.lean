import FastArena.ListBuffer

/-!
# Infallible calls and their fallible twins

The two families are written out twice and part only where a request is refused.
When the end of a request overflows a word, one goes on to the slow path and the
other gives up; no block can hold such a request, so both are refused.
-/

set_option autoImplicit false

namespace FastArena.Twins
open FastArena.MachineWord FastArena.ByteSpan FastArena.ArenaBlock FastArena.InlineStorage
  FastArena.DropTracking FastArena.ArenaCore FastArena.ArenaInvariant FastArena.RawRequest
  FastArena.ArenaRequests FastArena.ArenaWorld FastArena.ListBuffer

def HasTwin : Kind → Prop
  | .uninit _ => False
  | .raw _ align => PowerOfTwo align
  | .zeroed _ align => PowerOfTwo align
  | _ => True

def Agree (serve : Request → Outcome) (k : Kind) : Prop :=
  ∀ o p, o.ret = .ptr p → (serve ⟨k,false⟩ = o ↔ serve ⟨k,true⟩ = o)

def SameServed (slow slow' : Ret × Arena) : Prop :=
  ∀ p A', slow = (.ptr p,A') ↔ slow' = (.ptr p,A')

variable {A A' : Arena} {sys : SystemAlloc} {size align p : ℕ}

theorem sameServed_refl (r : Ret × Arena) : SameServed r r := fun _ _ => Iff.rfl

def Refusal (ret : Ret) : Prop := ∀ p, ret ≠ .ptr p

theorem refusal_none : Refusal .none := fun _ h => Ret.noConfusion h

theorem refusal_panic (message : String) : Refusal (.panic message) := fun _ h => Ret.noConfusion h

theorem sameServed_of_not {r r' : Ret × Arena} (h : Refusal r.1) (h' : Refusal r'.1) :
    SameServed r r' :=
  fun p _ => iff_of_false (fun heq => h p (congrArg Prod.fst heq))
    (fun heq => h' p (congrArg Prod.fst heq))

section slow
variable {oom misfit oom' misfit' : Ret}

theorem newBlockWith_same (hoom : Refusal oom) (hmisfit : Refusal misfit) (hoom' : Refusal oom')
    (hmisfit' : Refusal misfit') (sys : SystemAlloc) (A : Arena) (size align : ℕ) :
    SameServed (A.newBlockWith oom misfit sys size align)
      (A.newBlockWith oom' misfit' sys size align) := by
  unfold Arena.newBlockWith
  cases A.nextBlockFor size align with
  | none => exact sameServed_refl _
  | some next =>
    dsimp only
    cases Block.tryNew sys next.1 align with
    | none => exact sameServed_of_not hoom hoom'
    | some block =>
      dsimp only
      cases block.tryAlloc size align with
      | none => exact sameServed_of_not hmisfit hmisfit'
      | some found => exact sameServed_refl _

theorem newBlock_same (hoom : Refusal oom) (hmisfit : Refusal misfit) (hoom' : Refusal oom')
    (hmisfit' : Refusal misfit') (sys : SystemAlloc) (A : Arena) (size align : ℕ) :
    SameServed (newBlock oom misfit sys A size align) (newBlock oom' misfit' sys A size align) := by
  unfold newBlock
  cases A.nextBlockFor size align with
  | none => exact sameServed_refl _
  | some next =>
    dsimp only
    cases Block.tryNew sys next.1 align with
    | none => exact sameServed_of_not hoom hoom'
    | some block =>
      dsimp only
      cases block.tryAlloc size align with
      | none => exact sameServed_of_not hmisfit hmisfit'
      | some found => exact sameServed_refl _

end slow

/-- The scan is the same, so the slow paths agree if their new-block steps do. -/
theorem slowWith_same {newBlock newBlock' : Arena → ℕ → ℕ → Ret × Arena}
    (h : ∀ A size align, SameServed (newBlock A size align) (newBlock' A size align)) :
    SameServed (A.slowWith newBlock size align) (A.slowWith newBlock' size align) := by
  unfold Arena.slowWith
  dsimp only
  cases A.finishSlowPath.retained size align with
  | some found => exact sameServed_refl _
  | none => exact h _ _ _

theorem rawInnerWith_same {slow overflow slow' overflow' : Arena → ℕ → ℕ → Ret × Arena}
    (hslow : SameServed (slow A size align) (slow' A size align))
    (hover : Overflows A size align →
      SameServed (overflow A size align) (overflow' A size align)) :
    SameServed (A.rawInnerWith slow overflow size align)
      (A.rawInnerWith slow' overflow' size align) := by
  rcases @rawInnerWith_branches A A rfl rfl slow overflow slow' overflow' size align with
    ⟨p,q,heq,heq'⟩ | ⟨-,-,heq,heq'⟩ | ⟨hoverflows,heq,heq'⟩
  · rw [heq, heq']
    exact sameServed_refl _
  · rw [heq, heq']
    exact hslow
  · rw [heq, heq']
    exact hover hoverflows

theorem not_moved_of_overflows (h : Wf A) (hpow : PowerOfTwo align)
    (hover : Overflows A size align) : ¬ Moved A size align p A' := by
  intro hm
  obtain ⟨hlow,hnone⟩ := hover
  have htop : A.curEnd ≤ 2^63 := curEnd_le h
  have hptr := h.ptr_le
  obtain ⟨-,hup,-⟩ := alignUp_curPtr (anchored h) hpow
  have htop' : A'.curEnd ≤ 2^63 := curEnd_le hm.wf
  have hroom := hm.wf.ptr_le
  have hplaced := hm.wf.laid.placed A'.current (current_lt hm.wf)
  have hbase : minBlockAlign ≤ A'.curBase := by
    rw [hm.wf.base_eq]
    exact hplaced.align_min.trans (Nat.le_of_dvd hplaced.nonnull hplaced.aligned)
  have hlong : ¬ ArenaBlock.alignUp A.curPtr align + size < 2^64 := by
    intro hlt
    rw [checkedAdd, if_pos hlt] at hnone
    exact Option.some_ne_none _ hnone
  rw [hm.end_eq, hm.ptr_eq] at hroom
  unfold minBlockAlign at hlow hbase
  omega

theorem rawInner_same (h : Wf A) (hs : Grants sys A.blocks) (hpow : PowerOfTwo align)
    (hsize : size < 2^64) :
    SameServed (A.rawInner false sys size align) (A.rawInner true sys size align) := by
  apply rawInnerWith_same
  · exact slowWith_same (newBlockWith_same (refusal_panic _) (refusal_panic _) refusal_none
      refusal_none sys)
  · intro hover
    refine sameServed_of_not (fun p hp => ?_) refusal_none
    cases hr : A.allocSlow sys size align with
    | mk ret A' =>
    rw [hr] at hp
    rcases slowWith_cases h hs hpow hsize _ _ hr with ⟨-,q,-,hm⟩ | ⟨-,-,hret⟩
    · exact not_moved_of_overflows h hpow hover hm
    · rcases hret with hret | hret
      · exact Ret.noConfusion (hp.symm.trans hret)
      · exact Ret.noConfusion (hp.symm.trans hret)

theorem rawInner_same_buffer (h : Wf (mended A)) (hs : Grants sys A.blocks)
    (hpow : PowerOfTwo align) (hsize : size < 2^64) :
    SameServed (ListBuffer.rawInner false sys A size align)
      (ListBuffer.rawInner true sys A size align) := by
  apply rawInnerWith_same
  · exact slowWith_same (newBlock_same (refusal_panic _) (refusal_panic _) refusal_none
      refusal_none sys)
  · intro hover
    refine sameServed_of_not (fun p hp => ?_) refusal_none
    have htop : (mended A).curEnd ≤ 2^63 := curEnd_le h
    have hend : A.curEnd < 2^64 := lt_of_le_of_lt htop (by norm_num)
    have hslow : ListBuffer.rawInner false sys A size align =
        ListBuffer.allocSlow sys A size align := by
      refine (rawInnerWith_not_fits ?_ _ _).trans (ite_self _)
      exact fits_not_overflows hend hover
    rw [← hslow] at hp
    by_cases hlost : Lost false sys A size align
    · have hgrowth : minBlockSize ≤ A.nextBlockSize := h.growth_min
      obtain ⟨message,A',n,k,hraw,-⟩ := rawInner_lost hgrowth hs hpow hsize hlost
      rw [hraw] at hp
      exact Ret.noConfusion hp
    · obtain ⟨r,hr⟩ : ∃ r, Arena.rawInner false sys (mended A) size align =
          ((A.rawInner false sys size align).1,
            { (A.rawInner false sys size align).2 with bytesReserved := r }) :=
        rawInner_reserved false _
      have hraw := rawInner_end h hs hpow hsize false
      rw [hr] at hraw
      rw [rawInner_eq hend hlost] at hp
      dsimp only at hraw
      rw [hp] at hraw
      cases hraw with
      | bumped hb => exact not_fits_of_overflows h hover hb.fits
      | moved _ _ _ hm => exact not_moved_of_overflows h hpow hover hm
      | stalled _ _ _ _ hret =>
        rcases hret with ⟨hret,-⟩ | ⟨message,hret⟩
        · exact Ret.noConfusion hret
        · exact Ret.noConfusion hret

theorem onRaw_same {r r' : Ret × Arena} (h : SameServed r r') (lost : ℕ)
    (filled : ℕ → Arena → Outcome) {o : Outcome} (ho : o.ret = .ptr p) :
    onRaw r size align lost filled = o ↔ onRaw r' size align lost filled = o := by
  have hserved : ∀ {r r' : Ret × Arena}, SameServed r r' →
      onRaw r size align lost filled = o → onRaw r' size align lost filled = o := by
    intro r r' h heq
    obtain ⟨ret,B⟩ := r
    cases ret with
    | ptr q =>
      rw [(h q B).mp rfl]
      exact heq
    | none =>
      rw [← heq] at ho
      exact Ret.noConfusion ho
    | panic message =>
      rw [← heq] at ho
      exact Ret.noConfusion ho
  exact ⟨hserved h,hserved (fun q B => (h q B).symm)⟩

theorem answered_same {k : Kind} (hk : HasTwin k) (hd : k.demand = none) (sys : SystemAlloc)
    (A : Arena) : Agree (Request.serve sys A) k := by
  intro o p ho
  have hslice : ∀ (ty : Ty) (len : ℕ) (filled : ℕ → Arena → Outcome),
      sliceDemand ty len = none →
      (allocSliceWith false (.panic "overflow") sys A ty len filled = o ↔
        allocSliceWith true .none sys A ty len filled = o) := by
    intro ty len filled hnone
    unfold allocSliceWith
    by_cases hlen : len = 0
    · rw [if_pos hlen, if_pos hlen]
    · rw [sliceDemand, if_neg hlen, Option.map_eq_none_iff] at hnone
      rw [if_neg hlen, if_neg hlen, hnone]
      refine iff_of_false (fun heq => ?_) (fun heq => ?_)
      · rw [← heq] at ho
        exact Ret.noConfusion ho
      · rw [← heq] at ho
        exact Ret.noConfusion ho
  have hunless : ∀ {c : Prop} [Decidable c] {d : ℕ × ℕ},
      (if c then none else some d) = none → c := by
    intro c _ d h
    by_contra hc
    rw [if_neg hc] at h
    exact Option.some_ne_none _ h
  have hraw : ∀ {size align : ℕ}, PowerOfTwo align →
      (if PowerOfTwo align ∧ size ≠ 0 then some (size,align) else none) = none → size = 0 := by
    intro size align hpow h
    by_contra hne
    rw [if_pos ⟨hpow,hne⟩] at h
    exact Option.some_ne_none _ h
  cases k with
  | value ty =>
    have hsize : ty.size = 0 := hunless hd
    simp only [Request.serve, alloc, tryAlloc, allocWith, if_pos hsize]
  | slice ty len yields => exact hslice ty len _ hd
  | sliceCopy ty len => exact hslice ty len _ hd
  | str len =>
    have hlen : len = 0 := hunless hd
    simp only [Request.serve, allocStr, tryAllocStr, if_pos hlen]
  | uninit ty => exact hk.elim
  | raw size align =>
    have hsize := hraw hk hd
    simp only [Request.serve, allocRaw, tryAllocRaw, allocRawWith, if_pos hsize]
  | zeroed size align =>
    have hsize := hraw hk hd
    have hpow : PowerOfTwo align := hk
    simp only [Request.serve, allocZeroed, tryAllocZeroed, allocRawWith, if_pos hsize, if_pos hpow]
  | cacheAligned size =>
    have hsize : size = 0 := by
      by_contra hne
      exact Option.some_ne_none _ ((if_pos hne).symm.trans hd)
    simp only [Request.serve, allocCacheAligned, tryAllocCacheAligned, allocRaw, tryAllocRaw,
      allocRawWith, if_pos hsize]

theorem typed_twin {k : Kind} (hk : HasTwin k) (hr : Request.Typed ⟨k,false⟩) :
    Request.Typed ⟨k,true⟩ := by
  cases k with
  | uninit ty => exact hk.elim
  | _ => exact hr

/-- From every arena met on a run, with the same answers of the system allocator, a call succeeds
with some address and state exactly when its twin does with the same; also where the block list
may be refused its own buffer. -/
theorem twins_agree (k : Kind) (hk : HasTwin k) (hr : Request.Typed ⟨k,false⟩)
    (sys : SystemAlloc) :
    (∀ w : World, Reached Honest w → Grants sys w.arena.blocks →
        Agree (Request.serve sys w.arena) k) ∧
      ∀ w : World, Visited w → Grants sys w.arena.blocks →
        Agree (ListBuffer.serve sys w.arena) k := by
  have hr' := typed_twin hk hr
  constructor
  · intro w hw hs o p ho
    have hwf := (inv_reached (fun _ _ hop => hop) hw).wf
    rcases serve_demand hwf sys hr with ⟨hd,-⟩ | ⟨size,align,hd,heq⟩
    · exact answered_same hk hd sys w.arena o p ho
    · rcases serve_demand hwf sys hr' with ⟨hd',-⟩ | ⟨size',align',hd',heq'⟩
      · exact absurd (hd.symm.trans hd') (Option.some_ne_none _)
      · obtain ⟨rfl,rfl⟩ := demand_unique hd hd'
        obtain ⟨hpow,hsize⟩ := demand_typed hr hd
        rw [heq, heq']
        exact onRaw_same (rawInner_same hwf hs hpow hsize) _ _ ho
  · intro w hw hs o p ho
    have hwf := (sane_visited hw).wf
    unfold ListBuffer.serve
    cases hd : k.demand with
    | none => exact answered_same hk hd sys w.arena o p ho
    | some demand =>
      obtain ⟨size,align⟩ := demand
      obtain ⟨hpow,hsize⟩ := demand_typed hr hd
      exact onRaw_same (rawInner_same_buffer hwf hs hpow hsize) _ _ ho

theorem twins_agree_second : ∃ A, smallArena true 64 = some A ∧
    (Request.serve (oneBlock 128 8192) A ⟨.raw 128 1,false⟩).ret = .ptr 8192 ∧
    Agree (Request.serve (oneBlock 128 8192) A) (.raw 128 1) ∧
    Agree (ListBuffer.serve (oneBlock 128 8192) A) (.raw 128 1) := by
  obtain ⟨A,hA⟩ : ∃ A, smallArena true 64 = some A := ⟨_,rfl⟩
  have hret : (Request.serve (oneBlock 128 8192) A ⟨.raw 128 1,false⟩).ret = .ptr 8192 := by
    cases hA
    decide +kernel
  have hs : Grants (oneBlock 128 8192) A.blocks := by
    apply grants_second (by norm_num [minBlockAlign]) (by norm_num [addressTop])
    all_goals
      cases hA
      decide +kernel
  have hreached : Reached Honest (World.start A) := reached_small (by norm_num) hA [] trivial
  have hvisited : Visited (World.start A) :=
    ⟨_,true,64,A,[],grants_small (by norm_num),hA,trivial,rfl⟩
  have hagree := twins_agree (.raw 128 1) powerOfTwo_one (by norm_num [Request.Typed])
    (oneBlock 128 8192)
  exact ⟨A,hA,hret,hagree.1 (World.start A) hreached hs,hagree.2 (World.start A) hvisited hs⟩

end FastArena.Twins
