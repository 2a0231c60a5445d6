import FastArena.VecGrowth
import FastArena.ListBuffer

/-!
# The bump paths and the block allocator

Most requests are served without asking the block: the raw paths bound the absolute
end of the region, the string paths a plain sum. They do what the block's own
allocator does on offsets, as long as the bump pointer is in its block. A vector
that grows in place past the last address can put it below; nothing else can.
-/

set_option autoImplicit false

namespace FastArena.FastPaths
open FastArena.MachineWord FastArena.ArenaBlock FastArena.InlineStorage FastArena.ArenaCore
  FastArena.ArenaInvariant FastArena.RawRequest FastArena.ArenaSweep FastArena.ArenaRequests
  FastArena.LabelledRun FastArena.ArenaWorld FastArena.ArenaSteps FastArena.GrowableVec
  FastArena.VecGrowth

def currentBlock (A : Arena) : Block := { A.blocks.get A.current with offset := A.curOffset }

def Bumps (A : Arena) (size align p : ℕ) (A' : Arena) : Prop :=
  ∀ slow overflow, A.rawInnerWith slow overflow size align = (.ptr p,A')

def Leaves (A : Arena) (size align : ℕ) : Prop :=
  ∀ slow overflow, A.rawInnerWith slow overflow size align = slow A size align ∨
    A.rawInnerWith slow overflow size align = overflow A size align

structure BlockAgrees (A : Arena) (size align : ℕ) : Prop where
  bumps : ∀ p delta b, (currentBlock A).tryAlloc size align = some (p,delta,b) →
    ∃ A', Bumps A size align p A' ∧ A' = { A with curPtr := A'.curPtr } ∧
      A'.curOffset = b.offset ∧
        ∃ start, IsLeast {o | align ∣ o ∧ A.curOffset ≤ o} start ∧ b.offset = start + size
  leaves : (currentBlock A).tryAlloc size align = none → Leaves A size align

/-- All four bump paths agree with the block. A string has at most `isize::MAX` bytes. -/
structure FastPathsAgree (A : Arena) : Prop where
  raw : ∀ size align, 1 ≤ size → size < 2^64 → PowerOfTwo align → align ≤ minBlockAlign →
    BlockAgrees A size align
  str : ∀ sys len, 1 ≤ len → len < 2^63 →
    allocStr sys A len = onRaw (A.allocRawInner sys len 1) len 1 0 (placeBytes len) ∧
      tryAllocStr sys A len = onRaw (A.tryAllocRawInner sys len 1) len 1 0 (placeBytes len)

section agreement
variable {A : Arena} {size align : ℕ}

theorem anchored_bump (h : Anchored A) {q : ℕ} (hlo : A.curBase ≤ q) (hhi : q ≤ A.curEnd) :
    Anchored { A with curPtr := q } := ⟨h.placed,h.base_eq,h.end_eq,hlo,hhi⟩

theorem currentBlock_tryAlloc (h : Anchored A) (hpow : PowerOfTwo align) :
    (currentBlock A).tryAlloc size align = if alignUp A.curPtr align + size ≤ A.curEnd then
      some (alignUp A.curPtr align,alignUp A.curPtr align - A.curBase + size - A.curOffset,
        { A.blocks.get A.current with offset := alignUp A.curPtr align - A.curBase + size })
    else none := by
  obtain ⟨hge,hlt,-⟩ := alignUp_curPtr h hpow
  have htop : A.curEnd ≤ 2^63 := anchored_end h
  have halign := powerOfTwo_le hpow
  have hbase := h.base_le
  have hptr := h.ptr_le
  have hend := h.end_eq
  have hoff := anchored_offset h
  have hcur : wadd A.curBase A.curOffset = A.curPtr := by
    rw [hoff, wadd_eq (by omega)]
    omega
  unfold Block.tryAlloc currentBlock
  dsimp only
  rw [← h.base_eq, hcur]
  generalize alignUp A.curPtr align = start at hge hlt
  rw [wsub_eq (by omega) (by omega)]
  unfold checkedAdd
  by_cases hword : start - A.curBase + size < 2^64
  · rw [if_pos hword]
    dsimp only
    by_cases hroom : start + size ≤ A.curEnd
    · rw [if_neg (by omega), if_pos hroom, wadd_eq (by omega), wsub_eq (by omega) (by omega),
        Nat.add_sub_cancel' (by omega)]
    · rw [if_pos (by omega), if_neg hroom]
  · rw [if_neg hword, if_neg (by omega)]

theorem aligned_offset_least (h : Anchored A) (hpow : PowerOfTwo align)
    (hlow : align ≤ minBlockAlign) :
    IsLeast {o | align ∣ o ∧ A.curOffset ≤ o} (alignUp A.curPtr align - A.curBase) := by
  obtain ⟨hge,-,hdvd⟩ := alignUp_curPtr h hpow
  have htop : A.curEnd ≤ 2^63 := anchored_end h
  have halign := powerOfTwo_le hpow
  have hbase := h.base_le
  have hptr := h.ptr_le
  have hoff := anchored_offset h
  have hbase_dvd : align ∣ A.curBase := by
    rw [h.base_eq]
    exact placed_align_dvd h.placed hpow (hlow.trans h.placed.align_min)
  refine ⟨⟨Nat.dvd_sub hdvd hbase_dvd,by omega⟩,?_⟩
  rintro o ⟨ho,hle⟩
  have hleast : alignUp A.curPtr align ≤ A.curBase + o :=
    alignUp_least hpow (by omega) (by omega) (dvd_add hbase_dvd ho)
  omega

theorem blockAgrees_anchored (h : Anchored A) (hpow : PowerOfTwo align)
    (hlow : align ≤ minBlockAlign) : BlockAgrees A size align := by
  by_cases hroom : alignUp A.curPtr align + size ≤ A.curEnd
  · obtain ⟨hge,-,-⟩ := alignUp_curPtr h hpow
    have hbase := h.base_le
    refine ⟨?_,?_⟩
    · intro p delta b hb
      rw [currentBlock_tryAlloc h hpow, if_pos hroom] at hb
      obtain ⟨rfl,hrest⟩ := Prod.mk.inj (Option.some.inj hb)
      obtain ⟨-,rfl⟩ := Prod.mk.inj hrest
      refine ⟨_,fun slow overflow => rawInnerWith_fits h hpow ⟨hlow,hroom⟩ slow overflow,rfl,?_,
        _,aligned_offset_least h hpow hlow,rfl⟩
      rw [anchored_offset (anchored_bump h (by omega) hroom)]
      dsimp only
      omega
    · intro hnone
      rw [currentBlock_tryAlloc h hpow, if_pos hroom] at hnone
      cases hnone
  · have hfits : ¬ Fits A size align := fun hfits => hroom hfits.2
    refine ⟨?_,fun _ slow overflow => ?_⟩
    · intro p delta b hb
      rw [currentBlock_tryAlloc h hpow, if_neg hroom] at hb
      cases hb
    · rw [rawInnerWith_not_fits hfits slow overflow]
      split
      · exact Or.inr rfl
      · exact Or.inl rfl

theorem agree_anchored (h : Anchored A) : FastPathsAgree A where
  raw := fun _ _ _ _ hpow hlow => blockAgrees_anchored h hpow hlow
  str := fun sys _ hpos hlen =>
    ⟨allocStr_eq h sys (Nat.ne_of_gt hpos) hlen,tryAllocStr_eq h sys (Nat.ne_of_gt hpos) hlen⟩

theorem taken_not_agree {p : ℕ} (hnone : (currentBlock A).tryAlloc 1 1 = none)
    (htaken : (A.rawInnerWith (fun B _ _ => (.none,B)) (fun B _ _ => (.none,B)) 1 1).1 = .ptr p) :
    ¬ FastPathsAgree A := by
  intro hagree
  have hlow : 1 ≤ minBlockAlign := by decide
  rcases (hagree.raw 1 1 (le_refl 1) (by norm_num) powerOfTwo_one hlow).leaves hnone
    (fun B _ _ => (.none,B)) (fun B _ _ => (.none,B)) with hslow | hover
  · exact Ret.noConfusion (htaken.symm.trans (congrArg Prod.fst hslow))
  · exact Ret.noConfusion (htaken.symm.trans (congrArg Prod.fst hover))

theorem not_agree_below (h : Anchored A) {q : ℕ} (hq : q < A.curBase) :
    ¬ FastPathsAgree { A with curPtr := q } := by
  have htop : A.curEnd ≤ 2^63 := anchored_end h
  have hend := h.end_eq
  have hbase := h.base_le
  have hptr := h.ptr_le
  have hword : q < 2^64 := by omega
  have hoff : Arena.curOffset { A with curPtr := q } = 2^64 + q - A.curBase := by
    unfold Arena.curOffset wsub
    dsimp only
    omega
  have hnone : (currentBlock { A with curPtr := q }).tryAlloc 1 1 = none := by
    have hcur : wadd A.curBase (2^64 + q - A.curBase) = q := by
      unfold wadd
      omega
    have hback : wsub q A.curBase = 2^64 + q - A.curBase := hoff
    unfold Block.tryAlloc currentBlock
    dsimp only
    rw [hoff, ← h.base_eq, hcur, alignUp_one hword, hback]
    unfold checkedAdd
    by_cases hsum : 2^64 + q - A.curBase + 1 < 2^64
    · rw [if_pos hsum]
      dsimp only
      rw [if_pos (by omega)]
    · rw [if_neg hsum]
  refine @taken_not_agree _ q hnone ?_
  unfold Arena.rawInnerWith
  rw [if_neg (by decide)]
  dsimp only
  rw [alignUp_one hword, checkedAdd, if_pos (by omega)]
  dsimp only
  rw [if_pos (by omega), wsub_self hword, wadd_eq (by omega)]
  rfl

end agreement

/-- A growth in place does not come round to an end below the block. -/
def Grounded (s : Session) : Call → Prop
  | .vec _ op => ∀ ty v n newEnd, s.vec = some (ty,v) → 0 < ty.size → grownTo ty v op = some n →
      extendedEnd s.world.arena ty v n = some newEnd → s.world.arena.curBase ≤ newEnd
  | _ => True

section runs
variable {sys : SystemAlloc} {A : Arena} {ty : Ty} {v : ArenaVec} {n newEnd : ℕ}

theorem extendedEnd_le (h : extendedEnd A ty v n = some newEnd) : newEnd ≤ A.curEnd := by
  unfold extendedEnd at h
  split at h
  · dsimp only at h
    split at h
    · obtain ⟨hle,hsome⟩ := Option.ite_none_right_eq_some.mp h
      obtain rfl := Option.some.inj hsome
      exact hle
    · cases h
  · cases h

theorem growWith_extended (fallible : Bool) (hsize : 0 < ty.size)
    (h : extendedEnd A ty v n = some newEnd) :
    (growWith fallible sys A ty v n).call.arena = { A with curPtr := newEnd } := by
  unfold growWith
  rw [if_neg (Nat.ne_of_gt hsize), h]
  rfl

theorem wf_growWith (h : Wf A) (hs : Grants sys A.blocks) (fallible : Bool)
    (hground : ∀ newEnd, 0 < ty.size → extendedEnd A ty v n = some newEnd → A.curBase ≤ newEnd) :
    Wf (growWith fallible sys A ty v n).call.arena ∧
      Grown A.blocks (growWith fallible sys A ty v n).call.arena.blocks := by
  by_cases hsize : ty.size = 0
  · unfold growWith
    rw [if_pos hsize]
    exact ⟨h,grown_refl _⟩
  · have hpos : 0 < ty.size := Nat.pos_of_ne_zero hsize
    cases hend : extendedEnd A ty v n with
    | some newEnd =>
      rw [growWith_extended fallible hpos hend]
      exact ⟨wf_bump h (hground newEnd hpos hend) (extendedEnd_le hend),grown_refl _⟩
    | none =>
      unfold growWith
      rw [if_neg hsize, hend]
      dsimp only
      cases hbytes : checkedMul n ty.size with
      | none => exact ⟨h,grown_refl _⟩
      | some bytes =>
        obtain ⟨rfl,hlt⟩ := checkedMul_some hbytes
        have hraw : ∀ fallible,
            Wf (Request.serve sys A ⟨.raw (n * ty.size) ty.align,fallible⟩).arena ∧
              Grown A.blocks
                (Request.serve sys A ⟨.raw (n * ty.size) ty.align,fallible⟩).arena.blocks :=
          fun fallible => wf_served h hs hlt
        dsimp only
        cases fallible with
        | false => split <;> exact hraw false
        | true => split <;> exact hraw true

theorem steady_take {w : World} (h : Steady Wf w) {o : Outcome}
    (ho : Wf o.arena ∧ Grown w.arena.blocks o.arena.blocks) : Steady Wf (w.take o) :=
  steady_of h ho.1 ho.2 rfl (fun _ hf => hf)

theorem wf_vecCapacity (h : Wf A) (hs : Grants sys A.blocks) (ty : Ty) (cap : ℕ) :
    Wf (GrowableVec.withCapacity sys A ty cap).call.arena ∧
      Grown A.blocks (GrowableVec.withCapacity sys A ty cap).call.arena.blocks := by
  unfold GrowableVec.withCapacity
  split
  · -- a new vector has no buffer to extend
    exact wf_growWith h hs false (fun _ _ hend => nomatch hend)
  · split
    · exact ⟨h,grown_refl _⟩
    · exact ⟨h,grown_refl _⟩

theorem steady_session {s : Session} (h : Steady Wf s.world) {c : Call} (hc : s.Honest c)
    (hground : Grounded s c) : Steady Wf (s.step c).world := by
  obtain ⟨w,opened⟩ := s
  cases opened with
  | none =>
    cases c with
    | arena op => exact steady_step h hc
    | withCapacity sys ty cap => exact steady_take h (wf_vecCapacity h.lawful hc.1 ty cap)
    | _ => exact steady_tick h
  | some held =>
    obtain ⟨ty,v⟩ := held
    cases c with
    | vec sys op =>
      refine steady_take h ?_
      rw [apply_call]
      cases hn : grownTo ty v op with
      | none => exact ⟨h.lawful,grown_refl _⟩
      | some n =>
        exact wf_growWith h.lawful hc.1 _ (fun newEnd hsize hend =>
          hground ty v n newEnd rfl hsize hn hend)
    | _ => exact steady_tick h

/-- One call keeps the agreement if and only if no growth comes round below the block. -/
theorem agree_step {s : Session} (h : Steady Wf s.world) {c : Call} (hc : s.Honest c) :
    FastPathsAgree (s.step c).world.arena ↔ Grounded s c := by
  constructor
  · intro hagree
    cases c with
    | vec sys op =>
      intro ty v n newEnd hv hsize hn hend
      by_contra hbelow
      have harena : (s.step (.vec sys op)).world.arena =
          { s.world.arena with curPtr := newEnd } := by
        unfold Session.step
        rw [hv]
        change (op.apply sys s.world.arena ty v).call.arena = _
        rw [apply_call, hn]
        exact growWith_extended op.fallible hsize hend
      rw [harena] at hagree
      exact not_agree_below (anchored h.lawful) (Nat.lt_of_not_le hbelow) hagree
    | _ => trivial
  · intro hground
    exact agree_anchored (anchored (steady_session h hc hground).lawful)

/-- An arena without vectors always agrees, even if its block list may be refused a buffer. -/
theorem agree_visited {w : World} (h : ListBuffer.Visited w) : FastPathsAgree w.arena := by
  have hanchored := anchored (ListBuffer.sane_visited h).wf
  exact agree_anchored ⟨hanchored.placed,hanchored.base_eq,hanchored.end_eq,hanchored.base_le,
    hanchored.ptr_le⟩

/-- The bump paths agree with the block throughout a run of an arena and its vectors if and only if
no vector's growth in place comes round below its block. -/
theorem fast_paths_agree_iff {feature : Bool} {initialBytes : ℕ}
    (hs : Grants sys (InlineVec.new : Blocks))
    (hA : Arena.withCapacity sys feature initialBytes = some A) {calls : List Call}
    (hcalls : Along Session.step Session.Honest ⟨World.start A,none⟩ calls) :
    Always Session.step (fun s => FastPathsAgree s.world.arena) ⟨World.start A,none⟩ calls ↔
      Along Session.step Grounded ⟨World.start A,none⟩ calls := by
  have hwf := (wf_withCapacity hs hA).1
  have hstart : Steady Wf (World.start A) := ⟨hwf,nofun,nofun⟩
  have hagree : FastPathsAgree (World.start A).arena := agree_anchored (anchored hwf)
  refine (always_iff _ _ _ _).trans ((and_iff_right hagree).trans ?_)
  exact along_congr_while Session.step Session.Honest (fun s => Steady Wf s.world)
    (fun s c h hc => agree_step h hc) (fun s c h hc hground => steady_session h hc hground)
    _ calls hstart hcalls

end runs

theorem fast_paths_agree_iff_pushed : ∃ A, smallArena true 64 = some A ∧
    Always Session.step (fun s => FastPathsAgree s.world.arena) ⟨World.start A,none⟩
      pushedCalls := by
  obtain ⟨A,hA⟩ : ∃ A, smallArena true 64 = some A := ⟨_,rfl⟩
  have hs : Grants (oneBlock 64 4096) (InlineVec.new : Blocks) := grants_small (by norm_num)
  have hground : Grounded ⟨(World.start A).tick,some (oneByte,GrowableVec.new oneByte)⟩
      (.vec noMemory .push) := by
    rintro ty v n newEnd hv - - hend
    obtain ⟨-,rfl⟩ := Prod.mk.inj (Option.some.inj hv)
    exact nomatch hend
  have hcalls : Along Session.step Session.Honest ⟨World.start A,none⟩ pushedCalls :=
    ⟨trivial,honest_push,trivial⟩
  exact ⟨A,hA,(fast_paths_agree_iff hs hA hcalls).mpr ⟨trivial,hground,trivial⟩⟩

/-- Asked for a word's worth of elements more, the vector moves the bump pointer to the byte before
the block, which the next raw request is given although the block would refuse it. -/
theorem bump_below_block : ∃ s : Session, s.Reached Session.Honest ∧
    ∃ A, A = s.world.arena ∧ A.curBase = 4096 ∧ A.curPtr = 4095 ∧
      (currentBlock A).tryAlloc 1 1 = none ∧ (A.allocRawInner noMemory 1 1).1 = .ptr 4095 ∧
        ¬ FastPathsAgree A := by
  obtain ⟨A,hA⟩ : ∃ A, smallArena true 64 = some A := ⟨_,rfl⟩
  have htyped : (VecOp.tryReserve (2^64-1)).Typed oneByte := show 2^64-1 < 2^64 by norm_num
  have hreached : Session.Reached Session.Honest (run Session.step ⟨World.start A,none⟩
      (pushedCalls ++ [.vec noMemory (.tryReserve (2^64-1))])) := by
    refine session_small (by norm_num) hA _ ⟨trivial,honest_push,⟨grants_noMemory _,?_⟩,trivial⟩
    intro ty v hv
    exact htyped
  have hnone : (currentBlock (run Session.step ⟨World.start A,none⟩
      (pushedCalls ++ [.vec noMemory (.tryReserve (2^64-1))])).world.arena).tryAlloc 1 1 =
        none := by
    cases hA
    decide +kernel
  refine ⟨_,hreached,_,rfl,?_,?_,hnone,?_,@taken_not_agree _ 4095 hnone ?_⟩
  all_goals
    cases hA
    decide +kernel

end FastArena.FastPaths
