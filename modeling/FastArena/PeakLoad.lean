import FastArena.BlockGrowth
import FastArena.RoomCache

/-!
# How much memory a workload keeps

The system allocator is asked for a block only while the largest block is
smaller than what is alive at once, with a full alignment less a byte of padding
for each region. So a workload that never has more than so much alive, for
however long it allocates, rewinds and resets, keeps no more blocks than it
takes to grow to that size.
-/

set_option autoImplicit false

namespace FastArena.PeakLoad
open FastArena.MachineWord FastArena.ByteSpan FastArena.ArenaBlock FastArena.InlineStorage
  FastArena.DropTracking FastArena.ArenaCore FastArena.ArenaInvariant FastArena.RawRequest
  FastArena.ArenaSweep FastArena.ArenaRequests FastArena.ArenaTransaction FastArena.LabelledRun
  FastArena.ArenaWorld FastArena.ArenaSteps FastArena.SystemCalls FastArena.BlockSizing
  FastArena.BlockGrowth FastArena.RoomCache

def weight (g : Grant) : ℕ := g.region.span.size + (g.region.align - 1)

def load (gs : List Grant) : ℕ := (gs.map weight).sum

def loadIn (gs : List Grant) (time lane : ℕ) : ℕ :=
  load (gs.filter (fun g => g.stamp < time ∧ g.lane = lane))

section loads
variable {gs hs : List Grant} {time time' lane since : ℕ}

theorem load_sublist (h : gs.Sublist hs) : load gs ≤ load hs :=
  (h.map weight).sum_le_sum (fun _ _ => Nat.zero_le _)

theorem loadIn_le (gs : List Grant) (time lane : ℕ) : loadIn gs time lane ≤ load gs :=
  load_sublist List.filter_sublist

theorem loadIn_mono (h : time ≤ time') : loadIn gs time lane ≤ loadIn gs time' lane := by
  apply load_sublist
  apply List.monotone_filter_right
  intro g hg
  simp only [decide_eq_true_eq] at hg ⊢
  exact ⟨lt_of_lt_of_le hg.1 h,hg.2⟩

theorem loadIn_cons_le (g : Grant) : loadIn gs time lane ≤ loadIn (g::gs) time lane :=
  load_sublist ((List.sublist_cons_self g gs).filter _)

theorem loadIn_cons (g : Grant) (htime : g.stamp < time) (hlane : g.lane = lane) :
    loadIn (g::gs) time lane = weight g + loadIn gs time lane := by
  unfold loadIn load
  rw [List.filter_cons_of_pos (by simp [htime, hlane]), List.map_cons, List.sum_cons]

theorem loadIn_filter (h : time ≤ since) :
    loadIn (gs.filter (·.stamp < since)) time lane = loadIn gs time lane := by
  unfold loadIn
  rw [List.filter_filter]
  congr 1
  apply List.filter_congr
  intro g _
  by_cases htime : g.stamp < time
  · simp [htime, lt_of_lt_of_le htime h]
  · simp [htime]

end loads

/-- The position and every valid checkpoint lie no further into their block than the regions from
before account for. -/
structure Light (w : World) : Prop where
  position : w.arena.curOffset ≤ loadIn w.live w.clock w.arena.current
  marks : ∀ m ∈ w.marks, m.stamp ∈ w.valid →
    m.cp.offset ≤ loadIn w.live m.stamp m.cp.blockIdx

section light
variable {w : World}

theorem light_later (h : Light w) {w' : World} (hoffset : w'.arena.curOffset = w.arena.curOffset)
    (hcurrent : w'.arena.current = w.arena.current) (hlive : w'.live = w.live)
    (hclock : w.clock ≤ w'.clock) (hmarks : w'.marks = w.marks) (hvalid : w'.valid = w.valid) :
    Light w' where
  position := by
    rw [hoffset, hcurrent, hlive]
    exact h.position.trans (loadIn_mono hclock)
  marks := by
    rw [hmarks, hvalid, hlive]
    exact h.marks

theorem light_grant (h : Light w) {w' : World} {g : Grant} (hstamp : g.stamp = w.clock)
    (hlane : g.lane = w'.arena.current)
    (hoffset : w'.arena.curOffset ≤ weight g + loadIn w.live w.clock w'.arena.current)
    (hlive : w'.live = g::w.live) (hclock : w'.clock = w.clock+1) (hmarks : w'.marks = w.marks)
    (hvalid : w'.valid = w.valid) : Light w' where
  position := by
    rw [hlive, hclock, loadIn_cons g (by omega) hlane]
    exact hoffset.trans (Nat.add_le_add_left (loadIn_mono (Nat.le_succ _)) _)
  marks := by
    rw [hmarks, hvalid, hlive]
    exact fun m hm hv => (h.marks m hm hv).trans (loadIn_cons_le g)

theorem curOffset_unmoved {A A' : Arena} (hu : Unmoved A A') : A'.curOffset = A.curOffset := by
  rw [Arena.curOffset, Arena.curOffset, hu.ptr_eq, hu.base_eq]

theorem light_served (hinv : Inv w) (h : Light w) {sys : SystemAlloc} {r : Request} {o : Outcome}
    (ho : Served sys w.arena r o) : Light (w.take o) := by
  cases ho with
  | @carved size align p A₁ o hd hpow hend hcarved hcarve hfills =>
    obtain ⟨registry,harena,-,-⟩ := hfills.arena_eq
    have hgrant := grantOf_carved (w := w) hcarve harena
    have hlive : (w.take o).live = _::w.live := congrArg (· ++ w.live) hgrant
    have hcurrent : (w.take o).arena.current = A₁.current := by
      change o.arena.current = _
      rw [harena]
    have hoffset : (w.take o).arena.curOffset = A₁.curOffset := by
      change o.arena.curOffset = _
      rw [harena]
      rfl
    apply light_grant h rfl hcurrent.symm _ hlive rfl rfl rfl
    rw [hoffset, hcurrent]
    unfold weight
    dsimp only
    cases hend with
    | bumped hb =>
      -- the pointer was rounded up by less than the alignment
      have hwf := hcarved.wf
      obtain ⟨hfits,rfl,rfl⟩ := hb
      have hoff := curOffset_eq hinv.wf
      have hoff' := curOffset_eq hwf
      have hbase := hinv.wf.base_le
      obtain ⟨-,hlt,-⟩ := alignUp_curPtr (anchored hinv.wf) hpow
      have hpos := h.position
      dsimp only at hoff' ⊢
      omega
    | moved hfits hroom hslow hm =>
      have hoff' := curOffset_eq hm.wf
      rw [hm.end_eq, hm.ptr_eq] at hoff'
      omega
    | stalled hfits hrefused hslow hstalled hret =>
      rcases hret with ⟨hret,-⟩ | ⟨message,hret⟩ <;> cases hret
  | failed hd hpow hend hret hunmoved =>
    exact light_later h (curOffset_unmoved hunmoved) hunmoved.current_eq rfl (Nat.le_succ _) rfl rfl
  | answered hd => exact light_later h rfl rfl rfl (Nat.le_succ _) rfl rfl

theorem light_note (hinv : Inv w) (h : Light w) : Light (w.note w.arena.checkpoint) where
  position := h.position.trans (loadIn_mono (Nat.le_succ _))
  marks := by
    intro m hm hv
    rcases List.mem_cons.mp hm with rfl | hold
    · exact h.position
    · have hpast : m.stamp < w.clock := hinv.sound.marks_past _ (List.mem_map_of_mem hold)
      rcases List.mem_cons.mp hv with heq | hvalid
      · omega
      · exact h.marks m hold hvalid

/-- Going back to a place which lies no further into its block than the regions from before
account for. -/
theorem light_sweep (h : Light w) {s : Swept} {since : ℕ}
    (hsince : since ≤ w.clock)
    (hcases : s.panic = some dropPanic ∧ (∃ r, s.arena = { w.arena with dropRegistry := r }) ∨
      s.panic = none ∧ s.arena.curOffset ≤ loadIn w.live since s.arena.current) :
    Light (w.sweep s since) := by
  rcases hcases with ⟨hpanic,r,hsame⟩ | ⟨hquiet,hoffset⟩
  · have hstopped : s.panic ≠ none := fun hquiet => nomatch hpanic.symm.trans hquiet
    have hlive : (w.sweep s since).live = w.live := if_neg hstopped
    constructor
    · rw [hlive]
      change s.arena.curOffset ≤ loadIn w.live (w.clock+1) s.arena.current
      rw [hsame]
      exact h.position.trans (loadIn_mono (Nat.le_succ _))
    · rw [hlive]
      exact fun m hm hv => h.marks m hm (mem_valid_sweep hv).1
  · have hlive : (w.sweep s since).live = w.live.filter (·.stamp < since) := if_pos hquiet
    constructor
    · rw [hlive]
      change s.arena.curOffset ≤ loadIn _ (w.clock+1) s.arena.current
      have hkept := @loadIn_filter w.live since s.arena.current since (le_refl since)
      exact hoffset.trans (hkept ▸ loadIn_mono (by omega))
    · intro m hm hv
      obtain ⟨hvalid,hle⟩ := mem_valid_sweep hv
      rw [hlive, loadIn_filter hle]
      exact h.marks m hm hvalid

theorem light_rewind (hinv : Inv w) (h : Light w) (boom : ℕ → ℕ → Bool) {m : Mark}
    (hm : m ∈ w.marks) (hvalid : m.stamp ∈ w.valid) :
    Light (w.sweep (w.arena.rewind boom m.cp) m.stamp) := by
  have hpast : m.stamp < w.clock := hinv.sound.marks_past _ (List.mem_map_of_mem hm)
  apply light_sweep h hpast.le
  rcases (rewind_cases boom hinv.wf (hinv.recallable m hm)).2.2 with
    ⟨hpanic,-,harena⟩ | ⟨hquiet,-,hrewound⟩
  · exact Or.inl ⟨hpanic,_,harena⟩
  · refine Or.inr ⟨hquiet,?_⟩
    rw [rewound_offset hrewound, hrewound.current_eq]
    exact h.marks m hm hvalid

theorem light_reset (hinv : Inv w) (h : Light w) (boom : ℕ → ℕ → Bool) :
    Light (w.sweep (w.arena.reset boom) 0) := by
  apply light_sweep h (Nat.zero_le _)
  rcases (reset_cases boom hinv.wf).2.2 with ⟨hpanic,-,harena⟩ | ⟨hquiet,-,hemptied⟩
  · exact Or.inl ⟨hpanic,_,harena⟩
  · refine Or.inr ⟨hquiet,?_⟩
    rw [curOffset_eq hemptied.wf, hemptied.ptr_eq, Nat.sub_self]
    exact Nat.zero_le _

theorem light_step (hinv : Inv w) (h : Light w) {op : Op} (hop : Permitted w op) :
    Light (w.step op) := by
  have hstep := stepped hinv hop.1
  generalize w.step op = w' at hstep
  cases hstep with
  | served _ _ hserved => exact light_served hinv h hserved
  | declined _ => exact light_later h rfl rfl rfl (Nat.le_succ _) rfl rfl
  | ticked _ => exact light_later h rfl rfl rfl (Nat.le_succ _) rfl rfl
  | noted _ =>
    have hnoted := light_note hinv h
    exact ⟨hnoted.position,hnoted.marks⟩
  | @rewound boom n m opened hm htarget _ _ =>
    have hlower : Light (atDepth w n) := ⟨h.position,h.marks⟩
    have hswept := light_rewind (inv_depth hinv n) hlower boom hm (htarget _ hop.2)
    exact ⟨hswept.position,hswept.marks⟩
  | @reset boom _ => exact light_reset hinv h boom

end light

def lastCap (A : Arena) : ℕ := (A.blocks.get (A.blocks.len-1)).capacity

def Snug (size : ℕ) (A : Arena) : Prop :=
  ∀ i, i+1 < A.blocks.len → (A.blocks.get i).capacity < size

def Roomy (A : Arena) (size align : ℕ) : Prop :=
  Fits A size align ∨ A.retained size align ≠ none

structure Crowded (A : Arena) (region : Region) : Prop where
  pow : PowerOfTwo region.align
  size_lt : region.span.size < 2^64
  full : ¬ Roomy A region.span.size region.align

section roomy
variable {A A' : Arena} {sys : SystemAlloc} {size align peak : ℕ}

theorem fits_last (h : Wf A) (hpow : PowerOfTwo align) (hlow : align ≤ minBlockAlign)
    (hlast : A.current+1 = A.blocks.len) (hroom : A.curOffset + size + (align-1) ≤ lastCap A) :
    Fits A size align := by
  obtain ⟨-,hlt,-⟩ := alignUp_curPtr (anchored h) hpow
  have hptr := curPtr_eq h
  have hend := h.end_eq
  rw [lastCap, ← hlast, Nat.add_sub_cancel] at hroom
  exact ⟨hlow,by omega⟩

theorem retained_last (h : Wf A) (hexact : Exact A) (hpow : PowerOfTwo align)
    (hlow : align ≤ minBlockAlign) (hsize : size < 2^64) (hearlier : A.current+1 < A.blocks.len)
    (hroom : size ≤ lastCap A) : A.retained size align ≠ none := by
  have hlast : A.blocks.len-1 < A.blocks.len := by omega
  have hplaced := h.laid.placed _ hlast
  have halign := hlow.trans hplaced.align_min
  unfold lastCap at hroom
  rw [retained_eq_firstFit h hexact hpow hlow hsize]
  apply firstFit_finds (j := A.blocks.len-1) (by omega) (by omega) halign
  rw [tryAlloc_empty hplaced (h.tail _ hlast (by omega)) hpow halign hsize, if_pos hroom]
  exact Option.some_ne_none _

theorem roomy_of_peak (h : Wf A) (hexact : Exact A) (hpow : PowerOfTwo align)
    (hlow : align ≤ minBlockAlign) (hsize : size < 2^64)
    (hpeak : A.curOffset + size + (align-1) ≤ peak) (hlast : peak ≤ lastCap A) :
    Roomy A size align := by
  have hcur := current_lt h
  by_cases hat : A.current+1 = A.blocks.len
  · exact Or.inl (fits_last h hpow hlow hat (hpeak.trans hlast))
  · exact Or.inr (retained_last h hexact hpow hlow hsize (by omega) (by omega))

theorem len_raw (h : Wf A) (hpow : PowerOfTwo align) (fallible : Bool) :
    (A.rawInner fallible sys size align).2.blocks.len = A.blocks.len ∨
      ¬ Roomy A size align ∧ (∃ p, (A.rawInner fallible sys size align).1 = .ptr p) ∧
        (A.rawInner fallible sys size align).2.blocks.len = A.blocks.len+1 := by
  by_cases hfits : Fits A size align
  · rw [rawInner_fits (anchored h) sys hpow hfits fallible]
    exact Or.inl rfl
  · rcases rawInner_slow sys fallible hfits with ⟨-,-,hraw⟩ | ⟨-,oom,misfit,-,-,hraw⟩
    · rw [hraw]
      exact Or.inl rfl
    · rw [hraw]
      cases hslow : A.slowWith (Arena.newBlockWith oom misfit sys) size align with
      | mk ret A' =>
      have hflush := finishSlowPath_len A
      cases slowWith_ends oom misfit hslow with
      | resumed hr =>
        rw [setCurrentBlock_blocks]
        exact Or.inl ((InlineVec.len_modify _ _ _).trans hflush)
      | overflowed _ _ => exact Or.inl hflush
      | refused _ _ _ => exact Or.inl hflush
      | misfitted _ _ _ _ => exact Or.inl hflush
      | fresh hr _ _ _ =>
        refine Or.inr ⟨fun hroomy => hroomy.elim hfits (fun hsome => hsome hr),⟨_,rfl⟩,?_⟩
        rw [setCurrentBlock_blocks]
        exact (InlineVec.len_push _ _).trans (congrArg (·+1) hflush)

theorem len_serve (h : Wf A) {r : Request} (hr : r.Typed) :
    (r.serve sys A).arena.blocks.len = A.blocks.len ∨
      ∃ region, (r.serve sys A).carved = some region ∧ Crowded A region ∧
        (r.serve sys A).arena.blocks.len = A.blocks.len+1 := by
  rcases serve_demand h sys hr with ⟨-,ret,drops,heq⟩ | ⟨size,align,hd,heq⟩
  · rw [heq]
    exact Or.inl rfl
  · obtain ⟨hpow,hsize⟩ := demand_typed hr hd
    obtain ⟨registry,harena⟩ := ListBuffer.onRaw_arena (A.rawInner r.fallible sys size align) size
      align r.kind.lost r.kind
    rw [heq, harena]
    rcases @len_raw A sys size align h hpow r.fallible with hsame | ⟨hfull,⟨p,hret⟩,hnew⟩
    · exact Or.inl hsame
    · refine Or.inr ⟨⟨⟨p,size⟩,align⟩,?_,⟨hpow,hsize,hfull⟩,hnew⟩
      generalize A.rawInner r.fallible sys size align = raw at hret
      obtain ⟨ret,A'⟩ := raw
      obtain rfl : ret = .ptr p := hret
      rfl

theorem snug_grown (hsnug : Snug peak A) (hgrown : Grown A.blocks A'.blocks)
    (hlen : A'.blocks.len = A.blocks.len ∨
      lastCap A < peak ∧ A'.blocks.len = A.blocks.len+1) : Snug peak A' := by
  intro i hi
  have hcap : i < A.blocks.len := by omega
  rw [(extent_inj (hgrown.extent_eq i hcap)).2]
  rcases hlen with hlen | ⟨hlast,hlen⟩
  · exact hsnug i (by omega)
  · by_cases hat : i+1 = A.blocks.len
    · rw [lastCap, ← hat, Nat.add_sub_cancel] at hlast
      exact hlast
    · exact hsnug i (by omega)

end roomy

def Sorted (A : Arena) : Prop := ∀ i < A.blocks.len, (A.blocks.get i).capacity ≤ lastCap A

def Leading (A : Arena) : Prop := (A.blocks.get A.largestRemainingIdx).capacity = lastCap A

section leading
variable {A A' : Arena} {sys : SystemAlloc} {size align peak : ℕ}

theorem sorted_of_snug (hsized : Sized A) (hsnug : Snug peak A) (hmax : peak ≤ maxBlockSize) :
    Sorted A := by
  have hdown : ∀ d i, i+d+1 = A.blocks.len → (A.blocks.get i).capacity ≤ lastCap A := by
    intro d
    induction d with
    | zero =>
      intro i hi
      rw [lastCap, ← hi]
      exact le_refl _
    | succ d ih =>
      intro i hi
      have hsmall := hsnug i (by omega)
      have hgrown := le_grownSize (le_refl (A.blocks.get i).capacity) (by omega)
      exact hgrown.trans ((hsized.graded i (by omega)).trans (ih (i+1) (by omega)))
  exact fun i hi => hdown (A.blocks.len-(i+1)) i (by omega)

theorem leading_scan {blocks : Blocks} (f : ℕ → ℕ) {i : ℕ} (hi : i < blocks.len)
    (hf : ∀ j < blocks.len, i < j → f j = (blocks.get j).capacity)
    (hpos : 0 < (blocks.get (blocks.len-1)).capacity)
    (hsorted : ∀ j < blocks.len,
      (blocks.get j).capacity ≤ (blocks.get (blocks.len-1)).capacity) :
    (blocks.get (largestFrom f (blocks.len-(i+1)) (i+1) 0 i).2).capacity =
      (blocks.get (blocks.len-1)).capacity := by
  by_cases hat : i+1 = blocks.len
  · rw [show blocks.len-(i+1) = 0 by omega, show blocks.len-1 = i by omega]
    rfl
  · obtain ⟨hmax,hcases⟩ := largestFrom_spec f (blocks.len-(i+1)) (i+1) 0 i
    have hmem : blocks.len-1 ∈ Finset.Ico (i+1) (i+1+(blocks.len-(i+1))) :=
      Finset.mem_Ico.mpr (by omega)
    have hlast := Finset.le_sup (f := f) hmem
    rw [hf _ (by omega) (by omega)] at hlast
    rcases hcases with heq | ⟨hlo,hhi,hattained⟩
    · rw [heq] at hmax
      dsimp only at hmax
      omega
    · rw [hf _ (by omega) (by omega)] at hattained
      apply le_antisymm (hsorted _ (by omega))
      omega

theorem lastCap_grown (hpos : 0 < A.blocks.len) (hgrown : Grown A.blocks A'.blocks)
    (hlen : A'.blocks.len = A.blocks.len) : lastCap A' = lastCap A := by
  rw [lastCap, lastCap, hlen]
  exact (extent_inj (hgrown.extent_eq _ (by omega))).2

theorem sorted_grown (hsorted : Sorted A) (hgrown : Grown A.blocks A'.blocks)
    (hlen : A'.blocks.len = A.blocks.len) : Sorted A' := by
  intro i hi
  rw [hlen] at hi
  rw [(extent_inj (hgrown.extent_eq i hi)).2, lastCap_grown (by omega) hgrown hlen]
  exact hsorted i hi

theorem leading_grown (h : Wf A) (hlead : Leading A) (hgrown : Grown A.blocks A'.blocks)
    (hlen : A'.blocks.len = A.blocks.len)
    (hbest : A'.largestRemainingIdx = A.largestRemainingIdx) : Leading A' := by
  have hlargest := h.largest_lt
  rw [Leading, hbest, (extent_inj (hgrown.extent_eq _ hlargest)).2,
    lastCap_grown (by omega) hgrown hlen]
  exact hlead

theorem leading_last {idx : ℕ} (hlast : idx+1 = A.blocks.len)
    (hbest : A.largestRemainingIdx ≤ idx) : Leading (A.setCurrentBlock idx) := by
  obtain ⟨hblocks,-,⟨hlater,-,-⟩ | ⟨-,hscan⟩⟩ := setCurrentBlock_cache A idx
  · omega
  · have hat := congrArg Prod.snd hscan
    dsimp only at hat
    unfold Leading lastCap
    rw [hblocks, hat, show A.blocks.len-(idx+1) = 0 by omega,
      show A.blocks.len-1 = idx by omega]
    rfl

theorem leading_entered {idx : ℕ} (hlaid : Laid A.blocks) (hidx : idx < A.blocks.len)
    (hempty : ∀ i < A.blocks.len, idx < i → (A.blocks.get i).offset = 0) (hsorted : Sorted A)
    (hlead : Leading A) : Leading (A.setCurrentBlock idx) := by
  obtain ⟨hblocks,-,hcases⟩ := setCurrentBlock_cache A idx
  unfold Leading lastCap
  rw [hblocks]
  rcases hcases with ⟨-,hbest,-⟩ | ⟨-,hscan⟩
  · rw [hbest]
    exact hlead
  · have hat := congrArg Prod.snd hscan
    dsimp only at hat
    rw [hat]
    apply leading_scan _ hidx
    · intro i hi hlt
      rw [wsub_room (hlaid.placed i hi), room, hempty i hi hlt, Nat.sub_zero]
    · exact (hlaid.placed _ (by omega)).capacity_pos
    · exact hsorted

theorem leading_slow (h : Wf A) (hpow : PowerOfTwo align) (hsize : size < 2^64)
    (hsorted : Sorted A) (hlead : Leading A) (oom misfit : Ret) :
    Leading (A.slowWith (Arena.newBlockWith oom misfit sys) size align).2 := by
  have hlen := finishSlowPath_len A
  have hflushed : Leading A.finishSlowPath :=
    leading_grown h hlead (finishSlowPath_grown h) hlen rfl
  cases hslow : A.slowWith (Arena.newBlockWith oom misfit sys) size align with
  | mk ret A' =>
  cases slowWith_ends oom misfit hslow with
  | @resumed i p delta b hr =>
    have hmoved := moved_retained h hpow hsize hr
    have hgrown := hmoved.grown
    have hlaid := hmoved.wf.laid
    obtain ⟨hlater,hi,-,-,-,-,-⟩ := retained_some h hpow hsize hr
    have htail := hmoved.wf.tail
    rw [setCurrentBlock_blocks] at hgrown hlaid htail
    rw [setCurrentBlock_current] at htail
    have hsize' : (A.finishSlowPath.blocks.modify i (fun _ => b)).len = A.blocks.len :=
      (InlineVec.len_modify _ _ _).trans hlen
    apply leading_entered hlaid
    · exact hsize'.symm ▸ hi
    · exact htail
    · exact sorted_grown hsorted hgrown hsize'
    · exact leading_grown h hlead hgrown hsize' rfl
  | overflowed _ _ => exact hflushed
  | refused _ _ _ => exact hflushed
  | misfitted _ _ _ _ => exact hflushed
  | fresh _ _ _ _ =>
    apply leading_last
    · exact ((InlineVec.len_push _ _).trans (congrArg (·+1) hlen)).symm
    · exact h.largest_lt.le

theorem leading_raw (h : Wf A) (hpow : PowerOfTwo align) (hsize : size < 2^64)
    (hsorted : Sorted A) (hlead : Leading A) (fallible : Bool) :
    Leading (A.rawInner fallible sys size align).2 := by
  by_cases hfits : Fits A size align
  · rw [rawInner_fits (anchored h) sys hpow hfits fallible]
    exact hlead
  · rcases rawInner_slow sys fallible hfits with ⟨-,-,hraw⟩ | ⟨-,oom,misfit,-,-,hraw⟩
    · rw [hraw]
      exact hlead
    · rw [hraw]
      exact leading_slow h hpow hsize hsorted hlead oom misfit

theorem leading_serve (h : Wf A) {r : Request} (hr : r.Typed) (hsorted : Sorted A)
    (hlead : Leading A) : Leading (r.serve sys A).arena := by
  rcases serve_demand h sys hr with ⟨-,ret,drops,heq⟩ | ⟨size,align,hd,heq⟩
  · rw [heq]
    exact hlead
  · obtain ⟨hpow,hsize⟩ := demand_typed hr hd
    obtain ⟨registry,harena⟩ := ListBuffer.onRaw_arena (A.rawInner r.fallible sys size align) size
      align r.kind.lost r.kind
    rw [heq, harena]
    exact @leading_raw A sys size align h hpow hsize hsorted hlead r.fallible

theorem leading_rewind (h : Wf A) {cp : Checkpoint} (hcp : Recallable A.blocks cp)
    (boom : ℕ → ℕ → Bool) (hsorted : Sorted A) (hlead : Leading A) :
    Leading (A.rewind boom cp).arena := by
  unfold Arena.rewind
  rw [if_pos hcp.idx_lt]
  dsimp only
  split
  · exact hlead
  · obtain ⟨hlaid,hgrown,hlen,-,-,hempty⟩ := rewound_blocks h hcp rfl
    apply leading_entered hlaid
    · exact hlen.symm ▸ hcp.idx_lt
    · intro i hi hlt
      dsimp only at hi
      exact hempty i (hlen ▸ hi) hlt
    · exact sorted_grown hsorted hgrown hlen
    · exact leading_grown h hlead hgrown hlen rfl

theorem leading_reset (h : Wf A) (boom : ℕ → ℕ → Bool) (hsorted : Sorted A) (hlead : Leading A) :
    Leading (A.reset boom).arena := by
  have hfirst : 0 < A.blocks.len := Nat.zero_lt_of_lt h.high_lt
  have hlen := len_clearOffsets (A.highWaterMark+1) 0 A.blocks
  have hgrown := grown_clearOffsets (A.highWaterMark+1) 0 A.blocks
  unfold Arena.reset
  dsimp only
  split
  · exact hlead
  · have hlast := @lastCap_grown A { A with blocks := clearOffsets (A.highWaterMark+1) 0 A.blocks }
      hfirst hgrown hlen
    have hsorted' : Sorted { A with blocks := clearOffsets (A.highWaterMark+1) 0 A.blocks } :=
      sorted_grown hsorted hgrown hlen
    have hpos := (h.laid.placed (A.blocks.len-1) (by omega)).capacity_pos
    unfold Sorted at hsorted'
    unfold lastCap at hlast hsorted'
    unfold Leading lastCap
    dsimp only at hlast hsorted' ⊢
    generalize clearOffsets (A.highWaterMark+1) 0 A.blocks = blocks at *
    have hscan := leading_scan (fun i => (blocks.get i).capacity) (hlen ▸ hfirst)
      (fun _ _ _ => rfl) (hlast ▸ hpos) hsorted'
    split
    · exact hscan
    · next hone =>
      rw [show blocks.len-1 = 0 by omega]

end leading

/-- What is alive, with its alignment less a byte of padding for each region, is within the peak,
and no region is more strictly aligned than every block is. -/
structure Peaking (peak : ℕ) (w : World) : Prop where
  load_le : load w.live ≤ peak
  align_le : ∀ g ∈ w.live, g.region.align ≤ minBlockAlign

/-- Runs with so much alive at most. Beyond the largest regular size rewinds have to keep the
remembered room right. -/
structure Workload (peak : ℕ) (w : World) (op : Op) : Prop where
  permitted : Permitted w op
  peaking : Peaking peak (w.step op)
  keeping : maxBlockSize < peak → Keeping w op

structure Stocked (peak : ℕ) (w : World) : Prop where
  inv : Inv w
  light : Light w
  sized : Sized w.arena
  cached : Cached w.arena
  paced : Paced (chunks w.arena.blocks) w.arena.nextBlockSize
  snug : Snug peak w.arena
  leading : peak ≤ maxBlockSize → Leading w.arena

section stocked
variable {w : World} {peak : ℕ} {op : Op}

theorem keeping_of_sorted (hsorted : Sorted w.arena) (hlead : Leading w.arena) (op : Op) :
    Keeping w op := by
  have hkeeps : ∀ cp, Keeps w.arena cp := by
    intro cp _ i hi _
    rw [show _ = lastCap w.arena from hlead]
    exact hsorted i hi
  cases op with
  | rewind boom stamp => exact fun m _ _ => hkeeps m.cp
  | rollback boom => exact fun f _ _ => hkeeps f.txn.checkpoint
  | _ => trivial

theorem len_of_chunks {blocks blocks' : Blocks} (h : chunks blocks' = chunks blocks) :
    blocks'.len = blocks.len := by
  rw [← chunks_length, h, chunks_length]

/-- A step adds a block for a region that no block there is had room for, or none. -/
theorem added_step (hinv : Inv w) (hop : Honest w op) :
    (w.step op).arena.blocks.len = w.arena.blocks.len ∨
      ∃ g, (w.step op).live = g :: w.live ∧ Crowded w.arena g.region ∧
        (w.step op).arena.blocks.len = w.arena.blocks.len+1 := by
  have hstep := stepped hinv hop
  generalize w.step op = w' at hstep
  cases hstep with
  | @served sys r o hcall ho _ =>
    have htyped : r.Typed := by
      rcases hcall with rfl | ⟨rfl,-⟩ <;> exact hop.2
    subst ho
    apply (@len_serve w.arena sys hinv.wf r htyped).imp_right
    rintro ⟨region,hcarve,hcrowded,hnew⟩
    obtain ⟨g,hgrant,hregion⟩ : ∃ g, w.grantOf (r.serve sys w.arena) = [g] ∧ g.region = region := by
      unfold World.grantOf
      rw [hcarve]
      exact ⟨_,rfl,rfl⟩
    exact ⟨g,congrArg (· ++ w.live) hgrant,hregion ▸ hcrowded,hnew⟩
  | declined _ => exact Or.inl rfl
  | ticked _ => exact Or.inl rfl
  | noted _ => exact Or.inl rfl
  | rewound _ _ _ _ => exact Or.inl (len_of_chunks (chunks_rewind _ _ _))
  | reset _ => exact Or.inl (len_of_chunks (chunks_reset _ _))

/-- While the last block is as large as the peak no call adds a block. -/
theorem snug_step (h : Stocked peak w) (hop : Workload peak w op) :
    Snug peak (w.step op).arena := by
  obtain ⟨-,hforward⟩ := resized_step w op h.sized
  apply snug_grown h.snug hforward.grown
  apply (added_step h.inv hop.permitted.1).imp_right
  rintro ⟨g,hlive,hcrowded,hnew⟩
  refine ⟨?_,hnew⟩
  by_contra hlarge
  obtain ⟨hload,haligns⟩ := hop.peaking
  rw [hlive] at hload haligns
  have hlow := haligns g List.mem_cons_self
  have hoffset := h.light.position.trans (loadIn_le _ _ _)
  have hsum : load (g :: w.live) = weight g + load w.live := rfl
  unfold weight at hsum
  exact hcrowded.full (roomy_of_peak h.inv.wf h.cached.exact hcrowded.pow hlow hcrowded.size_lt
    (by omega) (Nat.le_of_not_lt hlarge))

theorem leading_step (h : Stocked peak w) (hmax : peak ≤ maxBlockSize) (hop : Honest w op) :
    Leading (w.step op).arena := by
  have hlead := h.leading hmax
  have hsorted := sorted_of_snug h.sized h.snug hmax
  have hstep := stepped h.inv hop
  generalize w.step op = w' at hstep
  cases hstep with
  | @served sys r o hcall ho _ =>
    have htyped : r.Typed := by
      rcases hcall with rfl | ⟨rfl,-⟩ <;> exact hop.2
    subst ho
    exact leading_serve h.inv.wf htyped hsorted hlead
  | declined _ => exact hlead
  | ticked _ => exact hlead
  | noted _ => exact hlead
  | @rewound boom n m opened hm _ _ _ =>
    exact @leading_rewind (atDepth w n).arena (wf_txnDepth h.inv.wf n) m.cp
      (h.inv.recallable m hm) boom hsorted hlead
  | @reset boom _ => exact leading_reset h.inv.wf boom hsorted hlead

theorem stocked_step (h : Stocked peak w) (hop : Workload peak w op) : Stocked peak (w.step op) where
  inv := inv_step h.inv hop.permitted.1
  light := light_step h.inv h.light hop.permitted
  sized := (resized_step w op h.sized).1
  cached := by
    apply (exact_step_iff h.inv h.cached hop.permitted.1).2
    by_cases hmax : peak ≤ maxBlockSize
    · exact keeping_of_sorted (sorted_of_snug h.sized h.snug hmax) (h.leading hmax) op
    · exact hop.keeping (by omega)
  paced := paces_step w op h.paced
  snug := snug_step h hop
  leading := fun hmax => leading_step h hmax hop.permitted.1

theorem stocked_reached (h : Reached (Workload peak) w) : Stocked peak w := by
  obtain ⟨sys,feature,initialBytes,A,ops,hs,hA,halong,rfl⟩ := h
  obtain ⟨hwf,-,hoffset,-,-,hregistry⟩ := wf_withCapacity hs hA
  refine run_invariant World.step (Workload peak) (Stocked peak) (fun _ _ => stocked_step) _ ops ?_
    halong
  have hone : A.blocks.len = 1 := by
    obtain ⟨block,-,rfl⟩ := Option.map_eq_some_iff.mp hA
    rfl
  have hlargest := hwf.largest_lt
  exact {
    inv := inv_start hwf (by rw [hregistry, DropRegistry.entries_new])
    light := ⟨by
      change A.curOffset ≤ _
      rw [hoffset]
      exact Nat.zero_le _,nofun⟩
    sized := sized_withCapacity hA
    cached := cached_withCapacity hA
    paced := paced_withCapacity hA
    snug := by
      intro i hi
      change i+1 < A.blocks.len at hi
      omega
    leading := fun _ => by
      change (A.blocks.get A.largestRemainingIdx).capacity = lastCap A
      rw [lastCap, hone, show A.largestRemainingIdx = 0 by omega] }

end stocked

/-- However long it runs, a workload with so much alive at most gets no block after one as large as
that. So its blocks are fewer than the doublings it takes to get there, and an arena made that large
never has a second. -/
theorem peak_bounds_blocks {w : World} {peak : ℕ} (h : Reached (Workload peak) w) :
    (∀ i, i+1 < w.arena.blocks.len → (w.arena.blocks.get i).capacity < peak) ∧
      (peak ≤ (w.arena.blocks.get 0).capacity → w.arena.stats.blockCount = 1) ∧
      (peak ≤ maxBlockSize → w.arena.stats.blockCount = 1 ∨
        minBlockSize * 2^(w.arena.stats.blockCount-2) < peak) := by
  have hstocked := stocked_reached h
  have hpos := hstocked.sized.blocks_pos
  have hsnug := hstocked.snug
  change _ ∧ (_ → w.arena.blocks.len = 1) ∧
    (_ → w.arena.blocks.len = 1 ∨ minBlockSize * 2^(w.arena.blocks.len-2) < peak)
  refine ⟨hsnug,fun hfirst => ?_,fun hmax => ?_⟩
  · by_contra hmore
    have hsmall := hsnug 0 (by omega)
    omega
  · by_cases hone : w.arena.blocks.len = 1
    · exact Or.inl hone
    · have hbefore : w.arena.blocks.len-2 < w.arena.blocks.len := by omega
      have hfloor : floorAt (w.arena.blocks.len-2) ≤
          (w.arena.blocks.get (w.arena.blocks.len-2)).capacity :=
        hstocked.paced.floor_le _ _ (chunks_getElem hbefore)
      have hsmall := hsnug (w.arena.blocks.len-2) (by omega)
      unfold floorAt at hfloor
      exact Or.inr (by omega)

def rounds : List Op :=
  [.request noMemory ⟨.raw 40 8,false⟩,.request (oneBlock 128 8192) ⟨.str 100,true⟩,.reset quiet,
    .request noMemory ⟨.raw 40 8,false⟩,.request noMemory ⟨.str 100,true⟩]

theorem peak_bounds_blocks_rounds : ∃ A, smallArena false 64 = some A ∧
    load (run World.step (World.start A) rounds).live = 147 ∧
      (run World.step (World.start A) rounds).arena.stats.blockCount = 2 ∧
        (2 = 1 ∨ minBlockSize * 2^(2-2) < 147) := by
  obtain ⟨A,hA⟩ : ∃ A, smallArena false 64 = some A := ⟨_,rfl⟩
  have hraw : (40 : ℕ) < 2^64 := by norm_num
  have hstr : (100 : ℕ) < 2^63 := by norm_num
  have hkeeping : ∀ w op, maxBlockSize < 147 → Keeping w op := by
    intro w op hlt
    norm_num [maxBlockSize] at hlt
  have hrounds : Along World.step (Workload 147) (World.start A) rounds := by
    refine ⟨⟨⟨⟨grants_noMemory _,hraw⟩,trivial⟩,?_,hkeeping _ _⟩,
      ⟨⟨⟨?_,hstr⟩,trivial⟩,?_,hkeeping _ _⟩,⟨⟨trivial,trivial⟩,?_,hkeeping _ _⟩,
      ⟨⟨⟨grants_noMemory _,hraw⟩,trivial⟩,?_,hkeeping _ _⟩,
      ⟨⟨⟨grants_noMemory _,hstr⟩,trivial⟩,?_,hkeeping _ _⟩,trivial⟩
    case refine_2 =>
      cases hA
      exact grants_second ⟨128,rfl⟩ (by norm_num [addressTop]) (by decide +kernel)
        (by decide +kernel) (by norm_num)
    all_goals
      cases hA
      exact ⟨by decide +kernel,by decide +kernel⟩
  have hcount : (run World.step (World.start A) rounds).arena.stats.blockCount = 2 := by
    cases hA
    decide +kernel
  have hbound := (peak_bounds_blocks (reached_small (by norm_num) hA rounds hrounds)).2.2
    (by norm_num [maxBlockSize])
  rw [hcount] at hbound
  refine ⟨A,hA,?_,hcount,hbound⟩
  cases hA
  decide +kernel

end FastArena.PeakLoad
