import FastArena.ArenaWorld

/-!
# Requests for no bytes

Most methods answer a request for no bytes at once. A slice of elements without
size is not one of these: its guard looks at the length alone, and a request for
zero bytes at the alignment of the elements goes to the raw allocator, which
rounds the bump pointer up or even takes a new block.
-/

set_option autoImplicit false

namespace FastArena.ZeroBytes
open FastArena.MachineWord FastArena.ByteSpan FastArena.ArenaBlock FastArena.InlineStorage
  FastArena.DropTracking FastArena.ArenaCore FastArena.ArenaInvariant FastArena.RawRequest
  FastArena.ArenaSweep FastArena.ArenaRequests FastArena.ArenaTransaction FastArena.LabelledRun
  FastArena.ArenaWorld

structure Free (A A' : Arena) : Prop where
  current_eq : A'.current = A.current
  base_eq : A'.curBase = A.curBase
  ptr_eq : A'.curPtr = A.curPtr
  stats_eq : A'.stats = A.stats
  blocks_eq : ∀ i < A.blocks.len, A'.blocks.get i = A.blocks.get i

/-- Whatever reaches the raw allocator finds the bump pointer aligned; or, aligned more than any
block is, it is refused a block of its own while the current block is empty. -/
def Costless (sys : SystemAlloc) (A : Arena) (k : Kind) : Prop :=
  ∀ size align, k.demand = some (size,align) →
    (align ≤ minBlockAlign ∧ align ∣ A.curPtr) ∨
      (minBlockAlign < align ∧ Refused sys A size align ∧ A.curOffset = 0 ∧
        (A.blocks.get A.current).offset = 0)

variable {A A' : Arena} {sys : SystemAlloc} {k : Kind} {size align p : ℕ}

theorem free_refl (A : Arena) : Free A A := ⟨rfl,rfl,rfl,rfl,fun _ _ => rfl⟩

theorem free_withRegistry (r : DropRegistry) :
    Free A { A' with dropRegistry := r } ↔ Free A A' :=
  ⟨fun h => ⟨h.1,h.2,h.3,h.4,h.5⟩,fun h => ⟨h.1,h.2,h.3,h.4,h.5⟩⟩

theorem demand_zero (hz : payload k = 0) (hd : k.demand = some (size,align)) : size = 0 := by
  have hslice : ∀ ty len, saturatingMul ty.size len = 0 →
      sliceDemand ty len = some (size,align) → size = 0 := by
    intro ty len hsat hdemand
    obtain ⟨-,rfl,-,hlt⟩ := sliceDemand_some hdemand
    unfold saturatingMul at hsat
    rw [Nat.mul_comm] at hsat
    omega
  cases k with
  | value ty => exact absurd hz (demand_unless hd).1
  | slice ty len yields => exact hslice ty len hz hd
  | sliceCopy ty len => exact hslice ty len hz hd
  | str len => exact absurd hz (demand_unless hd).1
  | uninit ty => exact absurd hz (demand_unless hd).1
  | raw n a => exact absurd hz (demand_if hd).1.2
  | zeroed n a => exact absurd hz (demand_if hd).1.2
  | cacheAligned n => exact absurd hz (demand_if hd).1

theorem alignUp_eq_iff (h : Wf A) (hpow : PowerOfTwo align) :
    alignUp A.curPtr align = A.curPtr ↔ align ∣ A.curPtr := by
  obtain ⟨hge,hlt,hdvd⟩ := alignUp_curPtr (anchored h) hpow
  constructor
  · intro heq
    rwa [heq] at hdvd
  · intro hptr
    have hgap := Nat.eq_zero_of_dvd_of_lt (Nat.dvd_sub hdvd hptr)
      (show alignUp A.curPtr align - A.curPtr < align by omega)
    omega

theorem fits_zero (h : Wf A) (hpow : PowerOfTwo align) (hlow : align ≤ minBlockAlign)
    (hdvd : align ∣ A.curPtr) : Fits A 0 align := by
  refine ⟨hlow,?_⟩
  rw [(alignUp_eq_iff h hpow).mpr hdvd]
  exact h.ptr_le

theorem not_overflows_zero (h : Wf A) (hpow : PowerOfTwo align) : ¬ Overflows A 0 align := by
  rintro ⟨hlow,hnone⟩
  obtain ⟨-,hlt,-⟩ := alignUp_curPtr (anchored h) hpow
  have htop : A.curEnd ≤ 2^63 := curEnd_le h
  have hptr := h.ptr_le
  unfold minBlockAlign at hlow
  rw [checkedAdd, if_pos (by omega)] at hnone
  exact Option.some_ne_none _ hnone

theorem base_aligned (h : Wf A) (hpow : PowerOfTwo align) (hlow : align ≤ minBlockAlign)
    (hoff : A.curOffset = 0) : align ∣ A.curPtr := by
  have hplaced := current_placed h
  rw [curPtr_eq h, hoff, Nat.add_zero, h.base_eq]
  exact placed_align_dvd hplaced hpow (hlow.trans hplaced.align_min)

theorem free_bumped (h : Wf A) (hpow : PowerOfTwo align) (hb : Bumped A 0 align p A') :
    Free A A' ↔ align ∣ A.curPtr := by
  obtain ⟨-,rfl,rfl⟩ := hb
  rw [← alignUp_eq_iff h hpow]
  constructor
  · exact fun hfree => hfree.ptr_eq
  · intro heq
    rw [Nat.add_zero, heq]
    exact free_refl A

theorem free_stalled (h : Wf A) (hs : Stalled A A') :
    Free A A' ↔ A.curOffset = 0 ∧ (A.blocks.get A.current).offset = 0 := by
  obtain ⟨n,-,-,rfl⟩ := hs
  have hoff : A.curOffset < 2^64 := by
    have hle := curOffset_le h
    have htop : (A.blocks.get A.current).base + (A.blocks.get A.current).capacity ≤ 2^63 :=
      (current_placed h).below_top
    omega
  have hbytes := h.allocated_lt
  have hcurrent := finishSlowPath_get_current h
  constructor
  · intro hfree
    have hstats := congrArg ArenaStats.bytesAllocated hfree.stats_eq
    change wadd (wadd A.bytesAllocated A.curOffset) A.curOffset =
      wadd A.bytesAllocated A.curOffset at hstats
    have hzero : A.curOffset = 0 := by
      unfold wadd at hstats
      omega
    have hstored := congrArg Block.offset (hfree.blocks_eq A.current (current_lt h))
    change (A.finishSlowPath.blocks.get A.current).offset = _ at hstored
    rw [hcurrent, hzero] at hstored
    exact ⟨hzero,hstored.symm⟩
  · rintro ⟨hzero,hstored⟩
    refine ⟨rfl,rfl,rfl,?_,fun i hi => ?_⟩
    · have hsame : wadd (wadd A.bytesAllocated A.curOffset) A.curOffset =
          wadd A.bytesAllocated A.curOffset := by
        rw [hzero]
        unfold wadd
        omega
      have hlen := finishSlowPath_len A
      exact congrArg₂ (fun b l => ArenaStats.mk b A.bytesReserved l) hsame hlen
    · by_cases hi' : i = A.current
      · rw [hi']
        change A.finishSlowPath.blocks.get A.current = _
        rw [hcurrent, hzero]
        rw [← hstored]
      · exact finishSlowPath_get A hi'

/-- A request for no bytes costs nothing exactly when it is answered at once, finds the bump
pointer aligned, or is refused in an empty block. -/
theorem zero_bytes_free_iff (w : World) (hw : Reached Honest w) (sys : SystemAlloc)
    (hs : Grants sys w.arena.blocks) (r : Request) (hr : r.Typed) (hz : payload r.kind = 0) :
    Free w.arena (r.serve sys w.arena).arena ↔ Costless sys w.arena r.kind := by
  have hwf := (inv_reached (fun _ _ hop => hop) hw).wf
  have hserved := serve_served hwf hs hr
  generalize r.serve sys w.arena = o at hserved
  have hcost : ∀ {size align}, r.kind.demand = some (size,align) → (Costless sys w.arena r.kind ↔
      (align ≤ minBlockAlign ∧ align ∣ w.arena.curPtr) ∨
        (minBlockAlign < align ∧ Refused sys w.arena size align ∧ w.arena.curOffset = 0 ∧
          (w.arena.blocks.get w.arena.current).offset = 0)) := fun hd => demand_each hd
  cases hserved with
  | answered hd =>
    refine iff_of_true (free_refl _) (fun size align hsome => ?_)
    exact absurd (hsome.symm.trans hd) (Option.some_ne_none _)
  | carved hd hpow hend hcarved _ hfills =>
    obtain rfl := demand_zero hz hd
    obtain ⟨registry,harena,-⟩ := hfills.arena_eq
    rw [harena, free_withRegistry, hcost hd]
    cases hend with
    | bumped hb =>
      rw [free_bumped hwf hpow hb]
      refine ⟨fun hdvd => Or.inl ⟨hb.fits.1,hdvd⟩,?_⟩
      rintro (⟨-,hdvd⟩ | ⟨hhigh,-⟩)
      · exact hdvd
      · exact absurd hb.fits.1 (Nat.not_le.mpr hhigh)
    | moved hfits hroom _ hm =>
      refine iff_of_false (fun hfree => absurd hfree.current_eq (Nat.ne_of_gt hm.later)) ?_
      rintro (⟨hlow,hdvd⟩ | ⟨-,hrefused,-⟩)
      · exact hfits (fits_zero hwf hpow hlow hdvd)
      · exact hroom hrefused
    | stalled _ _ _ _ hret =>
      rcases hret with ⟨hret,-⟩ | ⟨message,hret⟩
      · exact Ret.noConfusion hret
      · exact Ret.noConfusion hret
  | @failed size align ret A₁ hd hpow hend hret hunmoved =>
    obtain rfl := demand_zero hz hd
    rw [hcost hd]
    cases hend with
    | bumped hb => exact absurd rfl (hret _)
    | moved _ _ _ hm => exact absurd rfl (hret _)
    | rejected _ hover => exact absurd hover (not_overflows_zero hwf hpow)
    | stalled hfits hrefused _ hstalled _ =>
      refine (free_stalled hwf hstalled).trans ?_
      constructor
      · rintro ⟨hzero,hstored⟩
        by_cases hlow : align ≤ minBlockAlign
        · exact Or.inl ⟨hlow,base_aligned hwf hpow hlow hzero⟩
        · exact Or.inr ⟨Nat.not_le.mp hlow,hrefused,hzero,hstored⟩
      · rintro (⟨hlow,hdvd⟩ | ⟨-,-,hrest⟩)
        · exact absurd (fits_zero hwf hpow hlow hdvd) hfits
        · exact hrest

def empty8 : Ty := ⟨0,8,false,eightBytes.align_pow,dvd_zero 8,token.size_lt⟩

def emptySlice : Request := ⟨.slice empty8 1 1,false⟩

theorem emptySlice_typed : emptySlice.Typed := show 1 < 2^64 by norm_num

theorem zero_bytes_free_first : ∃ A, smallArena true 64 = some A ∧
    Free A (emptySlice.serve noMemory A).arena := by
  obtain ⟨A,hA⟩ : ∃ A, smallArena true 64 = some A := ⟨_,rfl⟩
  have hptr : A.curPtr = 4096 := by
    cases hA
    decide +kernel
  have hreached : Reached Honest (World.start A) := reached_small (by norm_num) hA [] trivial
  refine ⟨A,hA,(zero_bytes_free_iff (World.start A) hreached noMemory (grants_noMemory _) emptySlice
    emptySlice_typed rfl).mpr (fun size align hd => ?_)⟩
  obtain ⟨rfl,rfl⟩ := Prod.mk.inj (Option.some.inj hd)
  left
  exact ⟨by decide,hptr ▸ by decide⟩

/-- One byte is taken, and a slice of one element without size takes seven more. -/
theorem empty_slice_costs : ∃ A w, smallArena true 64 = some A ∧
    w = run World.step (World.start A) [.request noMemory ⟨.raw 1 1,false⟩] ∧
    Reached Honest w ∧ ¬ Free w.arena (emptySlice.serve noMemory w.arena).arena := by
  obtain ⟨A,hA⟩ : ∃ A, smallArena true 64 = some A := ⟨_,rfl⟩
  have hmoved : (run World.step (World.start A)
        [.request noMemory ⟨.raw 1 1,false⟩]).arena.curPtr = 4097 ∧
      (emptySlice.serve noMemory (run World.step (World.start A)
        [.request noMemory ⟨.raw 1 1,false⟩]).arena).arena.curPtr = 4104 := by
    cases hA
    constructor
    · decide +kernel
    · decide +kernel
  have hops : Along World.step Honest (World.start A) [.request noMemory ⟨.raw 1 1,false⟩] :=
    ⟨⟨grants_noMemory _,show 1 < 2^64 by norm_num⟩,trivial⟩
  refine ⟨A,_,hA,rfl,reached_small (by norm_num) hA _ hops,fun hfree => ?_⟩
  have hptr := hfree.ptr_eq
  rw [hmoved.1, hmoved.2] at hptr
  exact absurd hptr (by norm_num)

end FastArena.ZeroBytes
