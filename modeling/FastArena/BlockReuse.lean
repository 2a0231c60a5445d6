import FastArena.RoomCache
import FastArena.VecGrowth

/-!
# Requests served again from retained blocks

An arena that has the blocks another arena ends up with, is no further on than
it and remembers the right room, serves whatever the other serves, from its own
blocks. From the same position, with both remembering the right room, it hands
out the same addresses. So a list of calls repeated after a reset finds what
its first run left.
-/

set_option autoImplicit false

namespace FastArena.BlockReuse
open FastArena.MachineWord FastArena.ByteSpan FastArena.ArenaBlock FastArena.InlineStorage
  FastArena.DropTracking FastArena.ArenaCore FastArena.ArenaInvariant FastArena.RawRequest
  FastArena.ArenaSweep FastArena.ArenaRequests FastArena.LabelledRun FastArena.ArenaWorld
  FastArena.ArenaSteps FastArena.RoomCache FastArena.GrowableVec FastArena.VecGrowth

section choice
variable {A A' : Arena} {sys : SystemAlloc} {size align p : ℕ}

theorem firstFit_before (blocks : Blocks) (size align n i : ℕ) {k : ℕ} (hk : i ≤ k)
    (hstop : k < ((firstFit blocks size align n i).map (·.1)).getD (i+n))
    (halign : align ≤ (blocks.get k).align) : (blocks.get k).tryAlloc size align = none := by
  induction n generalizing i with
  | zero =>
    simp only [firstFit, Option.map_none, Option.getD_none] at hstop
    omega
  | succ n ih =>
    unfold firstFit at hstop
    have hend : i+(n+1) = i+1+n := by omega
    by_cases hhere : k = i
    · subst hhere
      rw [if_pos halign] at hstop
      cases hfit : (blocks.get k).tryAlloc size align with
      | none => rfl
      | some found =>
        rw [hfit] at hstop
        exact absurd hstop (Nat.lt_irrefl k)
    · rw [hend] at hstop
      split at hstop
      · cases hfit : (blocks.get i).tryAlloc size align with
        | none =>
          rw [hfit] at hstop
          exact ih (i+1) (by omega) hstop
        | some found =>
          rw [hfit] at hstop
          simp only [Option.map_some, Option.getD_some] at hstop
          omega
      · exact ih (i+1) (by omega) hstop

def nextHome (A : Arena) (size align : ℕ) : ℕ :=
  ((A.retained size align).map (·.1)).getD A.blocks.len

theorem nextHome_first (h : Wf A) (hc : Cached A) (hpow : PowerOfTwo align)
    (hlow : align ≤ minBlockAlign) (hsize : size < 2^64) {k : ℕ} (hk : A.current < k)
    (hbefore : k < nextHome A size align) :
    k < A.blocks.len ∧ (A.blocks.get k).capacity < size := by
  have hcur := current_lt h
  have hlen : k < A.blocks.len := by
    unfold nextHome at hbefore
    cases hr : A.retained size align with
    | none =>
      rw [hr] at hbefore
      exact hbefore
    | some found =>
      obtain ⟨i,q,delta,b⟩ := found
      rw [hr] at hbefore
      exact lt_trans hbefore (retained_some h hpow hsize hr).2.1
  have hplaced := h.laid.placed k hlen
  have hmin : minBlockAlign ≤ (A.blocks.get k).align := hplaced.align_min
  refine ⟨hlen,?_⟩
  rw [nextHome, retained_eq_firstFit h hc.exact hpow hlow hsize] at hbefore
  have hall : A.current+1+(A.blocks.len-(A.current+1)) = A.blocks.len := by omega
  have hnone := firstFit_before A.blocks size align (A.blocks.len - (A.current+1)) (A.current+1)
    (k := k) (by omega) (by rw [hall]; exact hbefore) (by omega)
  rw [tryAlloc_empty hplaced (h.tail k hlen hk) hpow (by omega) hsize] at hnone
  by_contra hroom
  rw [if_pos (by omega)] at hnone
  cases hnone

def resumed (A : Arena) (i delta : ℕ) (b : Block) : Arena :=
  Arena.setCurrentBlock { A.finishSlowPath with
    bytesAllocated := wadd A.finishSlowPath.bytesAllocated delta
    blocks := A.finishSlowPath.blocks.modify i (fun _ => b) } i

/-- A retained block of the request's size is found, whatever the system allocator would do. -/
theorem rawInner_retained (h : Wf A) (hc : Cached A) (hpow : PowerOfTwo align)
    (hlow : align ≤ minBlockAlign) (hfits : ¬ Fits A size align) {i : ℕ} (hi : A.current < i)
    (hlen : i < A.blocks.len) (hcap : size ≤ (A.blocks.get i).capacity) :
    ∃ T, Moved A size align (A.blocks.get (nextHome A size align)).base T ∧ Cached T ∧
      nextHome A size align ≤ i ∧ T.current = nextHome A size align ∧
      T.blocks.len = A.blocks.len ∧ ∀ fallible sys, A.rawInner fallible sys size align =
        (.ptr (A.blocks.get (nextHome A size align)).base,T) := by
  have htop : (A.blocks.get i).base + (A.blocks.get i).capacity ≤ 2^63 :=
    (h.laid.placed i hlen).below_top
  have hsize : size < 2^64 := by omega
  have hle : nextHome A size align ≤ i := by
    by_contra hlater
    have hsmall := (nextHome_first h hc hpow hlow hsize hi (by omega)).2
    omega
  cases hr : A.retained size align with
  | none =>
    rw [nextHome, hr, Option.map_none, Option.getD_none] at hle
    omega
  | some found =>
    obtain ⟨j,q,delta,b⟩ := found
    have hhome : nextHome A size align = j := by rw [nextHome, hr]; rfl
    obtain ⟨-,-,-,rfl,-,-,-⟩ := retained_some h hpow hsize hr
    have hmoved : Moved A size align (A.blocks.get j).base (resumed A j delta b) :=
      moved_retained h hpow hsize hr
    have hcached : Cached (resumed A j delta b) := cached_retained h hc hpow hsize hr
    obtain ⟨hblocks,hcurrent,-⟩ := setCurrentBlock_cache { A.finishSlowPath with
      bytesAllocated := wadd A.finishSlowPath.bytesAllocated delta
      blocks := A.finishSlowPath.blocks.modify j (fun _ => b) } j
    have hlen' : (resumed A j delta b).blocks.len = A.blocks.len := by
      rw [resumed, hblocks, InlineVec.len_modify, finishSlowPath_len]
    have hslow : ∀ newBlock, A.slowWith newBlock size align =
        (.ptr (A.blocks.get j).base,resumed A j delta b) := by
      intro newBlock
      unfold Arena.slowWith
      dsimp only
      rw [retained_finishSlowPath, hr]
      rfl
    have hover : ¬ Overflows A size align := by
      intro hover
      have hend : A.curEnd ≤ 2^63 := curEnd_le h
      have hptr := h.ptr_le
      obtain ⟨-,hup,-⟩ := alignUp_curPtr (anchored h) hpow
      have hplaced := h.laid.placed i hlen
      have hmin := hplaced.align_min
      have hbase := Nat.le_of_dvd hplaced.nonnull hplaced.aligned
      have hnone := hover.2
      rw [minBlockAlign] at hlow hmin
      rw [checkedAdd, if_pos (by omega)] at hnone
      cases hnone
    rw [hhome] at hle ⊢
    refine ⟨_,hmoved,hcached,hle,hcurrent,hlen',fun fallible sys => ?_⟩
    rcases rawInner_slow sys fallible hfits with
      ⟨-,hrejected,-⟩ | ⟨-,oom,misfit,-,-,hraw⟩
    · exact absurd hrejected hover
    · rw [hraw]
      exact hslow _

end choice

/-- `T` has the blocks `F`, the right room remembered, and is no further on than `S`. -/
structure Behind (F : Blocks) (S T : Arena) : Prop where
  wf : Wf T
  cached : Cached T
  len_eq : T.blocks.len = F.len
  same : Grown F T.blocks
  le : position T ≤ position S

theorem position_le {A B : Arena} : position A ≤ position B ↔
    A.current < B.current ∨ A.current = B.current ∧ A.curOffset ≤ B.curOffset :=
  Prod.Lex.toLex_le_toLex

theorem position_eq_iff {A B : Arena} : position A = position B ↔
    A.current = B.current ∧ A.curOffset = B.curOffset := by
  simp [position]

section follow
variable {F : Blocks} {S S' T : Arena} {size align p : ℕ}

theorem behind_extent {blocks : Blocks} (hF : Grown blocks F) (h : Behind F S T) {i : ℕ}
    (hi : i < blocks.len) : i < T.blocks.len ∧ (T.blocks.get i).base = (blocks.get i).base ∧
      (T.blocks.get i).capacity = (blocks.get i).capacity := by
  have hlen := lt_of_lt_of_le hi hF.len_le
  exact ⟨lt_of_lt_of_le hlen h.same.len_le,
    extent_inj ((h.same.extent_eq i hlen).trans (hF.extent_eq i hi))⟩

theorem behind_pointers (hS : Wf S) (hF : Grown S.blocks F) (h : Behind F S T)
    (hcur : T.current = S.current) : T.curBase = S.curBase ∧ T.curEnd = S.curEnd := by
  obtain ⟨-,hbase,hcap⟩ := behind_extent hF h (current_lt hS)
  have hbase' : T.curBase = S.curBase := by rw [h.wf.base_eq, hS.base_eq, hcur, hbase]
  exact ⟨hbase',by rw [h.wf.end_eq, hS.end_eq, hcur, hcap, hbase']⟩

theorem alignUp_mono {a b : ℕ} (hpow : PowerOfTwo align) (hab : a ≤ b) (hb : b + align ≤ 2^64) :
    alignUp a align ≤ alignUp b align := by
  obtain ⟨hge,-,hdvd⟩ := alignUp_spec b hpow hb
  exact alignUp_least hpow (by omega) (hab.trans hge) hdvd

theorem fits_behind (hS : Wf S) (hF : Grown S.blocks F) (h : Behind F S T)
    (hpow : PowerOfTwo align) (hcur : T.current = S.current) (hfits : Fits S size align) :
    Fits T size align ∧ alignUp T.curPtr align ≤ alignUp S.curPtr align := by
  obtain ⟨hbase,hend⟩ := behind_pointers hS hF h hcur
  have htop : S.curEnd ≤ 2^63 := curEnd_le hS
  have hptr := hS.ptr_le
  have halign := powerOfTwo_le hpow
  have hoff : T.curOffset ≤ S.curOffset := by
    rcases position_le.mp h.le with hlt | ⟨-,hle⟩
    · omega
    · exact hle
  have hle : T.curPtr ≤ S.curPtr := by
    rw [curPtr_eq h.wf, curPtr_eq hS, hbase]
    omega
  have hmono := alignUp_mono hpow hle (by omega)
  refine ⟨⟨hfits.1,?_⟩,hmono⟩
  have hroom := hfits.2
  omega

theorem curOffset_bump {A : Arena} (h : Wf A) {q : ℕ} (hlo : A.curPtr ≤ q) (hhi : q ≤ A.curEnd) :
    Arena.curOffset { A with curPtr := q } = q - A.curBase :=
  curOffset_eq (wf_bump h (h.base_le.trans hlo) hhi)

theorem curOffset_moved {A A' : Arena} (hm : Moved A size align p A') : A'.curOffset = size := by
  rw [curOffset_eq hm.wf, hm.end_eq, ← hm.ptr_eq, Nat.add_sub_cancel_left]

theorem follow_fits (hS : Wf S) (hF : Grown S.blocks F) (h : Behind F S T)
    (hpow : PowerOfTwo align) {sys : SystemAlloc} {fallible : Bool} (hfits : Fits T size align)
    (hend : RawEnd fallible sys S size align (.ptr p) S') :
    Behind F S' { T with curPtr := alignUp T.curPtr align + size } ∧
      (position T = position S → alignUp T.curPtr align = p ∧
        position { T with curPtr := alignUp T.curPtr align + size } = position S') := by
  obtain ⟨hge,-,-⟩ := alignUp_curPtr (anchored h.wf) hpow
  have hroom := hfits.2
  have hwf := wf_bump h.wf (q := alignUp T.curPtr align + size)
    (h.wf.base_le.trans (by omega)) hroom
  have hoff := curOffset_bump h.wf (q := alignUp T.curPtr align + size) (by omega) hroom
  have hbehind : ∀ hle, Behind F S' { T with curPtr := alignUp T.curPtr align + size } :=
    fun hle => ⟨hwf,cached_congr h.cached rfl rfl rfl rfl,h.len_eq,h.same,hle⟩
  cases hend with
  | bumped hb =>
    obtain ⟨hfitsS,rfl,rfl⟩ := hb
    obtain ⟨hgeS,-,-⟩ := alignUp_curPtr (anchored hS) hpow
    have hoffS := curOffset_bump hS (q := alignUp S.curPtr align + size) (by omega) hfitsS.2
    constructor
    · apply hbehind
      rw [position_le]
      rcases position_le.mp h.le with hlt | ⟨hcur,-⟩
      · exact Or.inl hlt
      · obtain ⟨hbase,-⟩ := behind_pointers hS hF h hcur
        have hmono := (fits_behind hS hF h hpow hcur hfitsS).2
        refine Or.inr ⟨hcur,?_⟩
        rw [hoff, hoffS, hbase]
        omega
    · intro heq
      obtain ⟨hcur,hsame⟩ := position_eq_iff.mp heq
      obtain ⟨hbase,-⟩ := behind_pointers hS hF h hcur
      have hptr : T.curPtr = S.curPtr := by rw [curPtr_eq h.wf, curPtr_eq hS, hbase, hsame]
      refine ⟨by rw [hptr],?_⟩
      rw [position_eq_iff, hoff, hoffS, hbase, hptr]
      exact ⟨hcur,rfl⟩
  | moved hno _ _ hm =>
    have hlater := hm.later
    constructor
    · apply hbehind
      rw [position_le]
      left
      rcases position_le.mp h.le with hlt | ⟨hcur,-⟩
      · exact hlt.trans hlater
      · exact lt_of_eq_of_lt hcur hlater
    · intro heq
      obtain ⟨hcur,hsame⟩ := position_eq_iff.mp heq
      obtain ⟨hbase,hcurEnd⟩ := behind_pointers hS hF h hcur
      have hptr : T.curPtr = S.curPtr := by rw [curPtr_eq h.wf, curPtr_eq hS, hbase, hsame]
      rw [hptr, hcurEnd] at hroom
      exact absurd ⟨hfits.1,hroom⟩ hno
  | stalled _ _ _ _ hret =>
    rcases hret with ⟨hret,-⟩ | ⟨_,hret⟩ <;> cases hret

theorem serving_block (hS : Wf S) (hF : Grown S.blocks F) (h : Behind F S T)
    (hpow : PowerOfTwo align) {sys : SystemAlloc} {fallible : Bool} (hfits : ¬ Fits T size align)
    (hend : RawEnd fallible sys S size align (.ptr p) S') :
    Wf S' ∧ T.current < S'.current ∧ size ≤ S'.curOffset := by
  cases hend with
  | bumped hb =>
    obtain ⟨hfitsS,rfl,rfl⟩ := hb
    obtain ⟨hgeS,-,-⟩ := alignUp_curPtr (anchored hS) hpow
    have hwf := wf_bump hS (q := alignUp S.curPtr align + size)
      (hS.base_le.trans (by omega)) hfitsS.2
    have hoffS := curOffset_bump hS (q := alignUp S.curPtr align + size) (by omega) hfitsS.2
    have hbase := hS.base_le
    refine ⟨hwf,?_,?_⟩
    · rcases position_le.mp h.le with hlt | ⟨hcur,-⟩
      · exact hlt
      · exact absurd (fits_behind hS hF h hpow hcur hfitsS).1 hfits
    · rw [hoffS]
      omega
  | moved _ _ _ hm =>
    have hlater := hm.later
    refine ⟨hm.wf,?_,(curOffset_moved hm).ge⟩
    rcases position_le.mp h.le with hlt | ⟨hcur,-⟩
    · exact hlt.trans hlater
    · exact lt_of_eq_of_lt hcur hlater
  | stalled _ _ _ _ hret =>
    rcases hret with ⟨hret,-⟩ | ⟨_,hret⟩ <;> cases hret

/-- Whatever raw request the one ahead serves, the one behind serves from its own blocks; from the
same position, and if the one ahead remembers the right room, at the same address. -/
theorem follow_raw (hS : Wf S) {sys : SystemAlloc} (hs : Grants sys S.blocks)
    (hF : Grown S.blocks F) (hF' : Grown S'.blocks F) (h : Behind F S T) (hpow : PowerOfTwo align)
    (hlow : align ≤ minBlockAlign) (hsize : size < 2^64) {fallible : Bool}
    (hr : S.rawInner fallible sys size align = (.ptr p,S')) :
    ∃ q T', (∀ sys', T.rawInner fallible sys' size align = (.ptr q,T')) ∧ Behind F S' T' ∧
      (Cached S → position T = position S → q = p ∧ position T' = position S') := by
  have hend := rawInner_end hS hs hpow hsize fallible
  rw [hr] at hend
  dsimp only at hend
  by_cases hfits : Fits T size align
  · obtain ⟨hbehind,hsame⟩ := follow_fits hS hF h hpow hfits hend
    exact ⟨_,_,fun sys' => rawInner_fits (anchored h.wf) sys' hpow hfits fallible,hbehind,
      fun _ => hsame⟩
  · obtain ⟨hwf,hlater,hroom⟩ := serving_block hS hF h hpow hfits hend
    obtain ⟨hlen,hbase,hcap⟩ := behind_extent hF' h (current_lt hwf)
    have hfull := hroom.trans (curOffset_le hwf)
    obtain ⟨T',hm,hcached,hle,hcur,hlen',hraw⟩ := rawInner_retained h.wf h.cached hpow hlow hfits
      hlater hlen (hcap ▸ hfull)
    have hoff := curOffset_moved hm
    have hsame := grown_trans h.same hm.grown
    refine ⟨_,T',hraw fallible,⟨hm.wf,hcached,hlen'.trans h.len_eq,hsame,?_⟩,?_⟩
    · rw [position_le, hcur, hoff]
      rcases Nat.lt_or_eq_of_le hle with hlt | heq
      · exact Or.inl hlt
      · exact Or.inr ⟨heq,hroom⟩
    · intro hcS heq
      have hcurS := (position_eq_iff.mp heq).1
      have hnoS : ¬ Fits S size align :=
        fun hfitsS => hfits (fits_behind hS hF h hpow hcurS hfitsS).1
      have hhome : S'.current = nextHome S size align := rawInner_current hnoS hr
      have hsame : nextHome T size align = S'.current := by
        by_contra hne
        have hbefore : nextHome T size align < nextHome S size align := by omega
        have hafter : S.current < nextHome T size align := by
          rw [← hcurS, ← hcur]
          exact hm.later
        obtain ⟨hin,hsmall⟩ := nextHome_first hS hcS hpow hlow hsize hafter hbefore
        have hcapT := (behind_extent hF h hin).2.2
        have hfullT := curOffset_le hm.wf
        rw [hoff, hcur, (extent_inj (hm.grown.extent_eq _ (by omega))).2] at hfullT
        omega
      cases hend with
      | bumped hb => exact absurd hb.fits hnoS
      | moved _ _ _ hmS =>
        rw [hsame]
        refine ⟨?_,?_⟩
        · rw [hmS.ptr_eq, hmS.wf.base_eq]
          exact hbase
        · rw [position_eq_iff, hcur, hoff, curOffset_moved hmS]
          exact ⟨hsame,rfl⟩
      | stalled _ _ _ _ hret =>
        rcases hret with ⟨hret,-⟩ | ⟨_,hret⟩ <;> cases hret

end follow

/-- The call succeeds, and asks for an alignment every block has. -/
structure Plain (A : Arena) (c : Ask) : Prop where
  grants : Grants c.1 A.blocks
  typed : c.2.Typed
  low : ∀ size align, c.2.kind.demand = some (size,align) → align ≤ minBlockAlign
  success : ∃ p, (c.2.serve c.1 A).ret = .ptr p

theorem serve_answered {r : Request} (hd : r.kind.demand = none) :
    ∃ ret drops, ∀ sys A, r.serve sys A = answer A ret drops := by
  have hraw : ∀ fallible size align filled, ¬ (PowerOfTwo align ∧ size ≠ 0) →
      ∃ ret drops, ∀ sys A, allocRawWith fallible sys A size align filled = answer A ret drops := by
    intro fallible size align filled hno
    refine ⟨if PowerOfTwo align then .ptr 1 else .panic alignPanic,0,fun sys A => ?_⟩
    rw [allocRawWith_eq, if_neg hno]
  have hslice : ∀ fallible overflow ty len filled, sliceDemand ty len = none → ∃ ret drops,
      ∀ sys A, allocSliceWith fallible overflow sys A ty len filled = answer A ret drops := by
    intro fallible overflow ty len filled hnone
    by_cases hlen : len = 0
    · exact ⟨_,0,fun sys A => if_pos hlen⟩
    · refine ⟨overflow,0,fun sys A => ?_⟩
      rw [sliceDemand, if_neg hlen, Option.map_eq_none_iff] at hnone
      rw [allocSliceWith, if_neg hlen, hnone]
  have hdemand : ∀ {c : Prop} [Decidable c] {x : ℕ × ℕ},
      (if c then some x else none) = none → ¬ c := by
    intro c _ x hnone hc
    rw [if_pos hc] at hnone
    cases hnone
  have hempty : ∀ {n : ℕ} {x : ℕ × ℕ}, (if n = 0 then none else some x) = none → n = 0 := by
    intro n x hnone
    by_contra hne
    rw [if_neg hne] at hnone
    cases hnone
  obtain ⟨kind,fallible⟩ := r
  cases kind with
  | value ty => cases fallible <;> exact ⟨_,_,fun sys A => if_pos (hempty hd)⟩
  | slice ty len yields => cases fallible <;> exact hslice _ _ ty len _ hd
  | sliceCopy ty len => cases fallible <;> exact hslice _ _ ty len _ hd
  | str len => cases fallible <;> exact ⟨_,_,fun sys A => if_pos (hempty hd)⟩
  | uninit ty => exact ⟨_,_,fun sys A => if_pos (hempty hd)⟩
  | raw size align => cases fallible <;> exact hraw _ size align _ (hdemand hd)
  | zeroed size align =>
    cases fallible with
    | false =>
      by_cases hsize : size = 0
      · exact ⟨_,_,fun sys A => if_pos hsize⟩
      · obtain ⟨ret,drops,hall⟩ := hraw false size align (placeBytes size) (hdemand hd)
        exact ⟨ret,drops,fun sys A => (if_neg hsize).trans (hall sys A)⟩
    | true => exact hraw true size align (placeBytes size) (hdemand hd)
  | cacheAligned size =>
    have hno : ¬ (PowerOfTwo cacheLineSize ∧ size ≠ 0) := fun hh => hdemand hd hh.2
    cases fallible <;> exact hraw _ size cacheLineSize placeNothing hno

theorem behind_registry {F : Blocks} {S T : Arena} (h : Behind F S T) (r r' : DropRegistry) :
    Behind F { S with dropRegistry := r } { T with dropRegistry := r' } :=
  ⟨wf_withRegistry h.wf r',cached_congr h.cached rfl rfl rfl rfl,h.len_eq,h.same,h.le⟩

section calls
variable {F : Blocks} {S T : Arena}

theorem follow_serve (hS : Wf S) {c : Ask} (hc : Plain S c) (hF : Grown (served S c).blocks F)
    (h : Behind F S T) (sys : SystemAlloc) : ∃ q, (c.2.serve sys T).ret = .ptr q ∧
      Behind F (served S c) (c.2.serve sys T).arena ∧ (Cached S → position T = position S →
        (c.2.serve c.1 S).ret = .ptr q ∧
          position (c.2.serve sys T).arena = position (served S c)) := by
  obtain ⟨sysS,r⟩ := c
  obtain ⟨hs,hr,hlow,p,hret⟩ := hc
  have hF₀ : Grown S.blocks F := grown_trans (wf_served hS hs hr).2 hF
  dsimp only [served] at *
  cases hd : r.kind.demand with
  | none =>
    obtain ⟨ret,drops,hall⟩ := serve_answered hd
    rw [hall] at hret ⊢
    rw [hall]
    exact ⟨p,hret,h,fun _ heq => ⟨hret,heq⟩⟩
  | some asked =>
    obtain ⟨size,align⟩ := asked
    obtain ⟨hpow,hsize⟩ := demand_typed hr hd
    have hserve : ∀ {A : Arena}, Wf A → ∀ sys, r.serve sys A =
        onRaw (A.rawInner r.fallible sys size align) size align r.kind.lost r.kind.filled := by
      intro A hA sys
      rcases serve_demand hA sys hr with ⟨hno,-⟩ | ⟨size',align',hd',heq⟩
      · exact nomatch hd.symm.trans hno
      · obtain ⟨rfl,rfl⟩ := demand_unique hd hd'
        exact heq
    rw [hserve hS] at hret hF ⊢
    rw [hserve h.wf]
    cases hraw : S.rawInner r.fallible sysS size align with
    | mk ret S' =>
    rw [hraw] at hret hF
    cases ret with
    | ptr pS =>
      have hfilled := filled_fills hd pS S'
      have hreply : r.kind.reply pS = .ptr p := hfilled.ret_eq.symm.trans hret
      have hcomplete : r.kind.Complete := by
        by_contra hno
        rw [Kind.reply, if_neg hno] at hreply
        cases hreply
      obtain ⟨rS,harenaS,-,-⟩ := hfilled.arena_eq
      have hnow : Grown S'.blocks F := by
        change Grown (r.kind.filled pS S').arena.blocks F at hF
        rw [harenaS] at hF
        exact hF
      obtain ⟨q,T',hrawT,hbehind,hsame⟩ := follow_raw hS hs hF₀ hnow h hpow
        (hlow size align hd) hsize hraw
      have hfilledT := filled_fills hd q T'
      obtain ⟨rT,harenaT,-,-⟩ := hfilledT.arena_eq
      rw [hrawT sys]
      refine ⟨q,hfilledT.ret_eq.trans (if_pos hcomplete),?_,fun hcS heq => ?_⟩
      · change Behind F (r.kind.filled pS S').arena (r.kind.filled q T').arena
        rw [harenaS, harenaT]
        exact behind_registry hbehind rS rT
      · obtain ⟨rfl,hpos⟩ := hsame hcS heq
        refine ⟨hfilled.ret_eq.trans (if_pos hcomplete),?_⟩
        change position (r.kind.filled q T').arena = position (r.kind.filled q S').arena
        rw [harenaS, harenaT]
        exact hpos
    | none => cases hret
    | panic message => cases hret

theorem wf_run {calls : List Ask} (hS : Wf S) (hcalls : Along served Plain S calls) :
    Wf (run served S calls) :=
  run_invariant served Plain Wf (fun _ _ hw hc => (wf_served hw hc.grants hc.typed).1) S calls hS
    hcalls

theorem grown_run {calls : List Ask} (hS : Wf S) (hcalls : Along served Plain S calls) :
    Grown S.blocks (run served S calls).blocks := by
  induction calls generalizing S with
  | nil => exact grown_refl _
  | cons c calls ih =>
    obtain ⟨hwf,hgrown⟩ := wf_served hS hcalls.1.grants hcalls.1.typed
    exact grown_trans hgrown (ih hwf hcalls.2)

/-- Over a list of calls: all of them succeed behind too, from the blocks there are. -/
theorem follow_run {calls calls' : List Ask} (hS : Wf S)
    (hcalls : Along served Plain S calls) (hF : Grown (run served S calls).blocks F)
    (h : Behind F S T) (hsame : calls'.map Prod.snd = calls.map Prod.snd) :
    Behind F (run served S calls) (run served T calls') ∧
      (∀ a ∈ answers T calls', ∃ q, a = .ptr q) ∧
      (Cached S → position T = position S → answers T calls' = answers S calls) := by
  induction calls generalizing S T calls' with
  | nil =>
    obtain rfl := List.map_eq_nil_iff.mp hsame
    exact ⟨h,nofun,fun _ _ => rfl⟩
  | cons c calls ih =>
    obtain ⟨hc,hrest⟩ := hcalls
    cases calls' with
    | nil => cases hsame
    | cons c' calls' =>
      obtain ⟨hreq,htail⟩ := List.cons.inj hsame
      have hwf := (wf_served hS hc.grants hc.typed).1
      have hnow : Grown (served S c).blocks F :=
        grown_trans (grown_run hwf hrest) hF
      obtain ⟨q,hret,hbehind,hkept⟩ := follow_serve hS hc hnow h c'.1
      rw [← show c'.2 = c.2 from hreq] at hret hbehind hkept
      obtain ⟨hend,hptr,hans⟩ := ih hwf hrest hF hbehind htail
      refine ⟨hend,?_,fun hcS heq => ?_⟩
      · intro a ha
        rcases List.mem_cons.mp ha with rfl | ha
        · exact ⟨q,hret⟩
        · exact hptr a ha
      · obtain ⟨hretS,hpos⟩ := hkept hcS heq
        have hcS' : Cached (served S c) := cached_serve hS hc.grants hcS hc.typed
        change (c'.2.serve c'.1 T).ret :: answers (served T c') calls' =
          (c.2.serve c.1 S).ret :: answers (served S c) calls
        rw [hret, ← hretS, hreq]
        exact congrArg _ (hans hcS' hpos)

end calls

/-- What the repeated list finds after a reset: the answers of its first run, and no more blocks
or bytes reserved than that run left. Nothing is assumed of the system allocator, which is not
called. -/
theorem reset_reuses {s : Session} (h : s.Reached Session.Proper) {boom boom' : ℕ → ℕ → Bool}
    (hfirst : (s.world.arena.reset boom).panic = none) {calls calls' : List Ask}
    (hcalls : Along served Plain (s.world.arena.reset boom).arena calls) {A : Arena}
    (hA : A = run served (s.world.arena.reset boom).arena calls)
    (hsecond : (A.reset boom').panic = none) (hsame : calls'.map Prod.snd = calls.map Prod.snd) :
    answers (A.reset boom').arena calls' = answers (s.world.arena.reset boom).arena calls ∧
      (run served (A.reset boom').arena calls').stats.bytesReserved = A.stats.bytesReserved ∧
      (run served (A.reset boom').arena calls').stats.blockCount = A.stats.blockCount := by
  have hwf := (session_reached h).world.wf
  obtain ⟨-,-,hcases⟩ := reset_cases boom hwf
  rcases hcases with ⟨hpanic,-,-⟩ | ⟨-,-,hS⟩
  · exact nomatch hfirst.symm.trans hpanic
  have hcS := cached_reset_done hwf hfirst
  have hwfA : Wf A := by
    rw [hA]
    exact wf_run hS.wf hcalls
  obtain ⟨-,-,hcases'⟩ := reset_cases boom' hwfA
  rcases hcases' with ⟨hpanic,-,-⟩ | ⟨-,-,hT⟩
  · exact nomatch hsecond.symm.trans hpanic
  have hpos : position (A.reset boom').arena = position (s.world.arena.reset boom).arena :=
    (emptied_position hT).trans (emptied_position hS).symm
  have hbehind : Behind A.blocks (s.world.arena.reset boom).arena (A.reset boom').arena :=
    ⟨hT.wf,cached_reset_done hwfA hsecond,hT.len_eq,hT.grown,le_of_eq hpos⟩
  obtain ⟨hend,-,hans⟩ := follow_run hS.wf hcalls (by rw [hA]; exact grown_refl _) hbehind hsame
  refine ⟨hans hcS hpos,?_,hend.len_eq⟩
  change (run served (A.reset boom').arena calls').bytesReserved = A.bytesReserved
  rw [hend.wf.reserved, hwfA.reserved, totalCapacity_congr hend.len_eq hend.same]

def firstCalls : List Ask :=
  [(noMemory,⟨.raw 40 8,false⟩),(oneBlock 128 8192,⟨.str 100,true⟩)]

def againCalls : List Ask := [(noMemory,⟨.raw 40 8,false⟩),(noMemory,⟨.str 100,true⟩)]

theorem raw_low {size align : ℕ} (hle : align ≤ minBlockAlign) :
    ∀ n a, (Kind.raw size align).demand = some (n,a) → a ≤ minBlockAlign := by
  intro n a hd
  obtain ⟨-,-,rfl⟩ := demand_if hd
  exact hle

theorem str_low (len : ℕ) :
    ∀ n a, (Kind.str len).demand = some (n,a) → a ≤ minBlockAlign := by
  intro n a hd
  obtain ⟨-,-,rfl⟩ := demand_unless hd
  norm_num [minBlockAlign]

theorem firstCalls_plain {A : Arena} (hA : smallArena false 64 = some A) :
    Along served Plain (A.reset quiet).arena firstCalls := by
  have hraw : 40 < 2^64 := by norm_num
  have hstr : 100 < 2^63 := by norm_num
  have hlow : 8 ≤ minBlockAlign := by norm_num [minBlockAlign]
  refine ⟨⟨grants_noMemory _,hraw,raw_low hlow,?_⟩,⟨?_,hstr,str_low 100,?_⟩,trivial⟩
  · cases hA
    exact ⟨4096,by decide +kernel⟩
  · apply grants_second (by norm_num [minBlockAlign]) (by norm_num [addressTop])
    all_goals
      cases hA
      decide +kernel
  · cases hA
    exact ⟨8192,by decide +kernel⟩

theorem reset_reuses_twoBlocks : ∃ A, smallArena false 64 = some A ∧
    ∃ B, B = run served (A.reset quiet).arena firstCalls ∧
      answers (B.reset quiet).arena againCalls = [.ptr 4096,.ptr 8192] ∧
      (run served (B.reset quiet).arena againCalls).stats.bytesReserved = 192 ∧
      (run served (B.reset quiet).arena againCalls).stats.blockCount = 2 := by
  obtain ⟨A,hA⟩ : ∃ A, smallArena false 64 = some A := ⟨_,rfl⟩
  have hreached : Session.Reached Session.Proper ⟨World.start A,none⟩ :=
    session_small (by norm_num) hA [] trivial
  have hfirst : (A.reset quiet).panic = none := by
    cases hA
    decide +kernel
  have hsecond : ((run served (A.reset quiet).arena firstCalls).reset quiet).panic = none := by
    cases hA
    decide +kernel
  obtain ⟨hans,hreserved,hcount⟩ := reset_reuses hreached hfirst (firstCalls_plain hA) rfl hsecond
    (show againCalls.map Prod.snd = firstCalls.map Prod.snd from rfl)
  refine ⟨A,hA,_,rfl,hans.trans ?_,hreserved.trans ?_,hcount.trans ?_⟩
  all_goals
    cases hA
    decide +kernel

end FastArena.BlockReuse
