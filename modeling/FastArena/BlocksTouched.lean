import FastArena.DropOrder
import Mathlib.Order.Interval.Finset.Nat

/-!
# Blocks touched by a transaction

`diff` counts the blocks from the one in which the transaction opened to the current
one. The slow path may pass over retained blocks, and may leave a block nothing was
written to. The count is right exactly as long as every request that goes on leaves
a block it has written to, for the very next one, and writes there.
-/

set_option autoImplicit false

namespace FastArena.BlocksTouched
open FastArena.MachineWord FastArena.ByteSpan FastArena.ArenaBlock FastArena.InlineStorage
  FastArena.DropTracking FastArena.ArenaCore FastArena.ArenaInvariant FastArena.RawRequest
  FastArena.ArenaSweep FastArena.ArenaRequests FastArena.ArenaTransaction FastArena.LabelledRun
  FastArena.ArenaWorld FastArena.DropOrder

/-- The blocks in which bytes were handed out from some time on. -/
def touched (since : ℕ) (w : World) : Finset ℕ :=
  ((w.issued.filter (fun g => since ≤ g.stamp ∧ 0 < g.region.span.size)).map
    Grant.lane).toFinset

def reply (w : World) : ArenaWorld.Op → Option Outcome
  | .request sys r => some (r.serve sys w.arena)
  | .guarded sys r => w.opened.head?.map (fun f => f.txn.serve sys w.arena r)
  | _ => none

def Succeeds (w : World) (op : ArenaWorld.Op) : Prop :=
  Honest w op ∧ ((∃ bytes, op = .setLimit bytes) ∨ ∃ o p, reply w op = some o ∧ o.ret = .ptr p)

/-- The innermost transaction reports the number of blocks touched, or one. -/
def Counted (since : ℕ) (w : World) : Prop :=
  ∃ f rest, w.opened = f::rest ∧
    (f.txn.diff w.arena).blocksTouched = max 1 (touched since w).card

def landing (A : Arena) (size align : ℕ) : ℕ :=
  match A.retained size align with
  | some found => found.1
  | none => A.blocks.len

def asked : ArenaWorld.Op → Option Request
  | .request _ r => some r
  | .guarded _ r => some r
  | _ => none

/-- A request that leaves the current block: the block was written to, the request goes to the next
one, and it is for some bytes. -/
def Consecutive (since : ℕ) (w : World) (op : ArenaWorld.Op) : Prop :=
  ∀ r size align, asked op = some r → r.kind.demand = some (size,align) →
    ¬ Fits w.arena size align → w.arena.current ∈ touched since w ∧
      landing w.arena size align = w.arena.current+1 ∧ 0 < size

section landing
variable {A A' : Arena} {sys : SystemAlloc} {size align p : ℕ}

theorem rawInner_landing {fallible : Bool} (hfits : ¬ Fits A size align)
    (h : A.rawInner fallible sys size align = (.ptr p,A')) :
    A'.current = landing A size align := by
  rw [rawInner_current hfits h]
  unfold landing
  cases A.retained size align <;> rfl

end landing

inductive Effect (w : World) (r : Request) (w' : World) : Prop where
  | none (hd : r.kind.demand = none) (hcurrent : w'.arena.current = w.arena.current)
      (hissued : w'.issued = w.issued)
  | grant {size align : ℕ} (g : Grant) (hd : r.kind.demand = some (size,align))
      (hstamp : g.stamp = w.clock) (hsize : g.region.span.size = size)
      (hlane : g.lane = w'.arena.current) (hissued : w'.issued = g :: w.issued)
      (hstay : Fits w.arena size align → w'.arena.current = w.arena.current)
      (hleave : ¬ Fits w.arena size align → w'.arena.current = landing w.arena size align ∧
        w.arena.current < landing w.arena size align)

section steps
variable {w : World} {since : ℕ}

theorem effect_serve (h : Inv w) {sys : SystemAlloc} (hs : Grants sys w.arena.blocks) {r : Request}
    (hr : r.Typed) {p : ℕ} (hp : (r.serve sys w.arena).ret = .ptr p) :
    Effect w r (w.take (r.serve sys w.arena)) := by
  rcases serve_demand h.wf sys hr with ⟨hd,ret,drops,heq⟩ | ⟨size,align,hd,heq⟩
  · rw [heq]
    exact .none hd rfl rfl
  · obtain ⟨hpow,hsize⟩ := demand_typed hr hd
    have hend := rawInner_end h.wf hs hpow hsize r.fallible
    rw [heq] at hp ⊢
    cases hraw : w.arena.rawInner r.fallible sys size align with
    | mk ret A₁ =>
    rw [hraw] at hp hend
    rcases rawEnd_cases h.wf hpow hend with ⟨q,rfl,hcarved⟩ | ⟨hret,-⟩
    · obtain ⟨registry,harena,-⟩ := (filled_fills hd q A₁).arena_eq
      have hgrant := @grantOf_carved w (onRaw (.ptr q,A₁) size align r.kind.lost r.kind.filled)
        size align q A₁ rfl registry harena
      have hcurrent : (w.take (onRaw (.ptr q,A₁) size align r.kind.lost
          r.kind.filled)).arena.current = A₁.current := by
        change (r.kind.filled q A₁).arena.current = _
        rw [harena]
      refine .grant _ hd ?_ ?_ ?_ (congrArg (· ++ w.issued) hgrant) (fun hfits => ?_)
        (fun hfits => ?_)
      · rfl
      · rfl
      · exact hcurrent.symm
      · rw [hcurrent]
        cases hend with
        | bumped hb =>
          have hafter : A₁ = _ := hb.after
          rw [hafter]
        | moved hno _ _ _ => exact absurd hfits hno
        | stalled hno _ _ _ _ => exact absurd hfits hno
      · rw [hcurrent]
        have hlanding := rawInner_landing hfits hraw
        refine ⟨hlanding,?_⟩
        rw [← hlanding]
        cases hend with
        | bumped hb => exact absurd hb.fits hfits
        | moved _ _ _ hm => exact hm.later
        | stalled _ _ _ _ hret =>
          rcases hret with ⟨hret,-⟩ | ⟨message,hret⟩
          · exact Ret.noConfusion hret
          · exact Ret.noConfusion hret
    · cases ret with
      | ptr q => exact absurd rfl (hret q)
      | none => exact Ret.noConfusion hp
      | panic message => exact Ret.noConfusion hp

theorem effect_step (h : Inv w) {op : ArenaWorld.Op} (hhonest : Honest w op) {o : Outcome} {p : ℕ}
    (hreply : reply w op = some o) (hp : o.ret = .ptr p) :
    (w.step op).opened = w.opened ∧ ∃ r, asked op = some r ∧ Effect w r (w.step op) := by
  cases op with
  | request sys r =>
    obtain rfl := Option.some.inj hreply
    exact ⟨rfl,r,rfl,effect_serve h hhonest.1 hhonest.2 hp⟩
  | guarded sys r =>
    cases hopened : w.opened with
    | nil =>
      simp only [reply, hopened, List.head?_nil, Option.map_none, reduceCtorEq] at hreply
    | cons f rest =>
      simp only [reply, hopened, List.head?_cons, Option.map_some, Option.some.injEq] at hreply
      subst hreply
      simp only [World.step, hopened]
      refine ⟨hopened,r,rfl,?_⟩
      rcases txn_serve f.txn sys w.arena r with ⟨-,heq⟩ | ⟨-,ret,hno,lost,heq⟩
      · rw [heq] at hp ⊢
        exact effect_serve h hhonest.1 hhonest.2 hp
      · rw [heq] at hp
        exact absurd hp (hno p)
  | _ => exact absurd hreply.symm (Option.some_ne_none _)

theorem touched_cons {w' : World} {g : Grant} (hissued : w'.issued = g :: w.issued)
    (hstamp : since ≤ g.stamp) : touched since w' =
      if 0 < g.region.span.size then insert g.lane (touched since w) else touched since w := by
  unfold touched
  rw [hissued]
  by_cases hsize : 0 < g.region.span.size
  · simp [hsize, hstamp]
  · simp [hsize]

structure Spread (b since : ℕ) (w : World) : Prop where
  opening_le : b ≤ w.arena.current
  within : touched since w ⊆ Finset.Icc b w.arena.current
  full : w.arena.current = b ∨ touched since w = Finset.Icc b w.arena.current

def Tallies (b since : ℕ) (w : World) : Prop :=
  w.arena.current-b+1 = max 1 (touched since w).card

theorem tallies_spread {b : ℕ} (h : Spread b since w) : Tallies b since w := by
  have hle := h.opening_le
  have hcard := Finset.card_le_card h.within
  rw [Nat.card_Icc] at hcard
  unfold Tallies
  rcases h.full with hsame | hall
  · omega
  · rw [hall, Nat.card_Icc]
    omega

theorem spread_stay {b : ℕ} {w' : World} (h : Spread b since w)
    (hcurrent : w'.arena.current = w.arena.current) {g : Grant} (hlane : g.lane = w'.arena.current)
    (hissued : w'.issued = g :: w.issued) (hstamp : since ≤ g.stamp) : Spread b since w' := by
  have hle := h.opening_le
  have hmem : w.arena.current ∈ Finset.Icc b w.arena.current := Finset.mem_Icc.mpr ⟨hle,le_refl _⟩
  rw [hcurrent] at hlane
  have htouched := touched_cons hissued hstamp
  rw [hlane] at htouched
  refine ⟨by rw [hcurrent]; exact hle,?_,?_⟩
  · rw [hcurrent, htouched]
    split
    · exact Finset.insert_subset hmem h.within
    · exact h.within
  · rw [hcurrent, htouched]
    rcases h.full with hsame | hall
    · exact Or.inl hsame
    · right
      split
      · rw [hall, Finset.insert_eq_of_mem hmem]
      · exact hall

/-- A request that goes on keeps the count right if and only if it does so consecutively. -/
theorem leave_iff {b : ℕ} {w' : World} (h : Spread b since w)
    (hlater : w.arena.current < w'.arena.current) {g : Grant} (hlane : g.lane = w'.arena.current)
    (hissued : w'.issued = g :: w.issued) (hstamp : since ≤ g.stamp) :
    (Tallies b since w' ↔ w.arena.current ∈ touched since w ∧
      w'.arena.current = w.arena.current+1 ∧ 0 < g.region.span.size) ∧
      (Tallies b since w' → Spread b since w') := by
  have hle := h.opening_le
  have hcard := Finset.card_le_card h.within
  rw [Nat.card_Icc] at hcard
  have htouched := touched_cons hissued hstamp
  rw [hlane] at htouched
  have hnew : w'.arena.current ∉ touched since w := by
    intro hin
    have := (Finset.mem_Icc.mp (h.within hin)).2
    omega
  have hforward : Tallies b since w' → w.arena.current ∈ touched since w ∧
      w'.arena.current = w.arena.current+1 ∧ 0 < g.region.span.size := by
    intro htally
    unfold Tallies at htally
    by_cases hsize : 0 < g.region.span.size
    · rw [htouched, if_pos hsize, Finset.card_insert_of_notMem hnew] at htally
      have hall : touched since w = Finset.Icc b w.arena.current :=
        Finset.eq_of_subset_of_card_le h.within (by rw [Nat.card_Icc]; omega)
      exact ⟨hall ▸ Finset.mem_Icc.mpr ⟨hle,le_refl _⟩,by omega,hsize⟩
    · rw [htouched, if_neg hsize] at htally
      omega
  have hbackward : w.arena.current ∈ touched since w ∧
      w'.arena.current = w.arena.current+1 ∧ 0 < g.region.span.size → Spread b since w' := by
    rintro ⟨hwritten,hnext,hsize⟩
    have hall : touched since w = Finset.Icc b w.arena.current := by
      rcases h.full with hsame | hall
      · refine h.within.antisymm (fun i hi => ?_)
        obtain ⟨hlow,hhigh⟩ := Finset.mem_Icc.mp hi
        obtain rfl : w.arena.current = i := by omega
        exact hwritten
      · exact hall
    have hall' : touched since w' = Finset.Icc b w'.arena.current := by
      rw [htouched, if_pos hsize, hall, hnext]
      exact Finset.insert_Icc_right_eq_Icc_add_one (by omega)
    exact ⟨by omega,hall'.subset,Or.inr hall'⟩
  exact ⟨⟨hforward,fun hh => tallies_spread (hbackward hh)⟩,fun ht => hbackward (hforward ht)⟩

theorem consecutive_iff {r : Request} {op : ArenaWorld.Op} {size align : ℕ}
    (hask : asked op = some r) (hd : r.kind.demand = some (size,align)) :
    Consecutive since w op ↔ (¬ Fits w.arena size align → w.arena.current ∈ touched since w ∧
      landing w.arena size align = w.arena.current+1 ∧ 0 < size) := by
  constructor
  · exact fun h => h r size align hask hd
  · intro h r' size' align' hask' hd'
    obtain rfl := Option.some.inj (hask.symm.trans hask')
    obtain ⟨rfl,rfl⟩ := demand_unique hd hd'
    exact h

theorem effect_tallies {b : ℕ} {w' : World} {r : Request} {op : ArenaWorld.Op}
    (h : Spread b since w) (hsince : since ≤ w.clock) (hask : asked op = some r)
    (heffect : Effect w r w') :
    (Tallies b since w' ↔ Consecutive since w op) ∧ (Tallies b since w' → Spread b since w') := by
  cases heffect with
  | none hd hcurrent hissued =>
    have htouched : touched since w' = touched since w := by
      unfold touched
      rw [hissued]
    have hspread : Spread b since w' := by
      refine ⟨?_,?_,?_⟩
      · rw [hcurrent]
        exact h.opening_le
      · rw [hcurrent, htouched]
        exact h.within
      · rw [hcurrent, htouched]
        exact h.full
    refine ⟨iff_of_true (tallies_spread hspread) ?_,fun _ => hspread⟩
    intro r' size align hask' hd'
    obtain rfl := Option.some.inj (hask.symm.trans hask')
    exact absurd (hd'.symm.trans hd) (Option.some_ne_none _)
  | @grant size align g hd hstamp hsize hlane hissued hstay hleave =>
    subst size
    have hstamp' : since ≤ g.stamp := hstamp ▸ hsince
    rw [consecutive_iff hask hd]
    by_cases hfits : Fits w.arena g.region.span.size align
    · have hspread := spread_stay h (hstay hfits) hlane hissued hstamp'
      exact ⟨iff_of_true (tallies_spread hspread) (fun hno => absurd hfits hno),fun _ => hspread⟩
    · obtain ⟨hlands,hlater⟩ := hleave hfits
      rw [← hlands]
      rw [← hlands] at hlater
      obtain ⟨hiff,hspread⟩ := leave_iff h hlater hlane hissued hstamp'
      exact ⟨hiff.trans ⟨fun hh _ => hh,fun hh => hh hfits⟩,hspread⟩

structure Ongoing (b since : ℕ) (w : World) : Prop where
  inv : Inv w
  since_le : since ≤ w.clock
  opened : ∃ f rest, w.opened = f::rest ∧ f.txn.blockAtOpen = b
  spread : Spread b since w

theorem counted_iff {b : ℕ} (h : ∃ f rest, w.opened = f::rest ∧ f.txn.blockAtOpen = b) :
    Counted since w ↔ Tallies b since w := by
  obtain ⟨f,rest,hopened,rfl⟩ := h
  constructor
  · rintro ⟨f',rest',hopened',hdiff⟩
    obtain ⟨rfl,-⟩ := List.cons.inj (hopened.symm.trans hopened')
    exact hdiff
  · exact fun hdiff => ⟨f,rest,hopened,hdiff⟩

theorem ongoing_step {b : ℕ} (h : Ongoing b since w) {op : ArenaWorld.Op} (hop : Succeeds w op) :
    (Counted since (w.step op) ↔ Consecutive since w op) ∧
      (Counted since (w.step op) → Ongoing b since (w.step op)) := by
  have hinv := inv_step h.inv hop.1
  have hsince := h.since_le.trans ((Nat.le_succ _).trans_eq (clock_step w op).symm)
  rcases hop.2 with ⟨bytes,rfl⟩ | ⟨o,p,hreply,hp⟩
  · obtain ⟨f,rest,hopened,hblock⟩ := h.opened
    have hstep : w.step (.setLimit bytes) =
        { w.tick with opened := { f with txn := f.txn.setLimit bytes } :: rest } := by
      simp only [World.step, hopened]
    have hopen : ∃ g rest, (w.step (.setLimit bytes)).opened = g::rest ∧
        g.txn.blockAtOpen = b := by
      rw [hstep]
      exact ⟨_,_,rfl,hblock⟩
    have hspread : Spread b since (w.step (.setLimit bytes)) := by
      rw [hstep]
      exact ⟨h.spread.opening_le,h.spread.within,h.spread.full⟩
    rw [counted_iff hopen]
    exact ⟨iff_of_true (tallies_spread hspread) (fun _ _ _ hask => absurd hask.symm
      (Option.some_ne_none _)),fun _ => ⟨hinv,hsince,hopen,hspread⟩⟩
  · obtain ⟨hsame,r,hask,heffect⟩ := effect_step h.inv hop.1 hreply hp
    have hopen : ∃ f rest, (w.step op).opened = f::rest ∧ f.txn.blockAtOpen = b := by
      rw [hsame]
      exact h.opened
    obtain ⟨hiff,hspread⟩ := effect_tallies h.spread h.since_le hask heffect
    rw [counted_iff hopen]
    exact ⟨hiff,fun ht => ⟨hinv,hsince,hopen,hspread ht⟩⟩

theorem touched_now (h : Inv w) : touched w.clock w = ∅ := by
  unfold touched
  rw [List.filter_eq_nil_iff.mpr ?_]
  · rfl
  · intro g hg
    have hpast : g.stamp < w.clock :=
      h.sound.issued_past g.piece (List.mem_map_of_mem hg)
    simp only [decide_eq_true_eq]
    omega

theorem ongoing_begin (h : Inv w) : Ongoing w.arena.current w.clock (w.step .begin) where
  inv := @inv_step w h .begin trivial
  since_le := Nat.le_succ _
  opened := ⟨_,_,rfl,rfl⟩
  spread := by
    have htouched : touched w.clock (w.step .begin) = ∅ := touched_now h
    refine ⟨le_refl _,?_,Or.inl rfl⟩
    rw [htouched]
    exact Finset.empty_subset _

end steps

/-- Through a transaction of successful allocations the reported number of blocks is the number
written to, or one, if and only if every request that leaves a block does so consecutively. -/
theorem blocks_touched_iff {w : World} (hw : Reached Honest w) (ops : List ArenaWorld.Op)
    (hops : Along World.step Succeeds (w.step .begin) ops) :
    Always World.step (Counted w.clock) (w.step .begin) ops ↔
      Along World.step (Consecutive w.clock) (w.step .begin) ops := by
  have hbegin := ongoing_begin (inv_reached (fun _ _ hop => hop) hw)
  have hcounted := (counted_iff hbegin.opened).mpr (tallies_spread hbegin.spread)
  rw [always_iff, and_iff_right hcounted]
  apply along_congr_while World.step Succeeds (Ongoing w.arena.current w.clock) _ _ _ ops hbegin hops
  · exact fun s op hs hop => (ongoing_step hs hop).1
  · intro s op hs hop hq
    obtain ⟨hiff,hkept⟩ := ongoing_step hs hop
    exact hkept (hiff.mpr hq)

theorem counted_told {w : World} {since : ℕ} (h : Counted since w) :
    w.opened.head?.map (fun f => (f.txn.diff w.arena).blocksTouched) =
      some (max 1 (touched since w).card) := by
  obtain ⟨f,rest,hopened,hdiff⟩ := h
  rw [hopened, List.head?_cons, Option.map_some, hdiff]

theorem replied {w : World} {op : ArenaWorld.Op} {p : ℕ}
    (h : (reply w op).map Outcome.ret = some (.ptr p)) :
    ∃ o p, reply w op = some o ∧ o.ret = .ptr p := by
  obtain ⟨o,hreply,hp⟩ := Option.map_eq_some_iff.mp h
  exact ⟨o,p,hreply,hp⟩

def crossingCalls : List ArenaWorld.Op :=
  [.request noMemory ⟨.raw 32 1,false⟩,.guarded noMemory ⟨.raw 32 1,true⟩,
    .guarded (oneBlock 128 8192) ⟨.raw 8 1,false⟩]

theorem blocks_touched_iff_crossing : ∃ A, smallArena true 64 = some A ∧
    Always World.step (Counted 1) ((World.start A).step .begin) crossingCalls := by
  obtain ⟨A,hA⟩ : ∃ A, smallArena true 64 = some A := ⟨_,rfl⟩
  have hreached : Reached Honest (World.start A) := reached_small (by norm_num) hA [] trivial
  have hops : Along World.step Succeeds ((World.start A).step .begin) crossingCalls := by
    refine ⟨⟨⟨grants_noMemory _,show 32 < 2^64 by norm_num⟩,Or.inr (@replied _ _ 4096 ?_)⟩,
      ⟨⟨grants_noMemory _,show 32 < 2^64 by norm_num⟩,Or.inr (@replied _ _ 4128 ?_)⟩,
      ⟨⟨?_,show 8 < 2^64 by norm_num⟩,Or.inr (@replied _ _ 8192 ?_)⟩,trivial⟩
    · cases hA
      decide +kernel
    · cases hA
      decide +kernel
    · apply grants_second (by norm_num [minBlockAlign]) (by norm_num [addressTop])
      all_goals
        cases hA
        decide +kernel
    · cases hA
      decide +kernel
  refine ⟨A,hA,(blocks_touched_iff hreached crossingCalls hops).mpr ⟨?_,?_,?_,trivial⟩⟩
  all_goals
    apply (consecutive_iff rfl rfl).mpr
    cases hA
    decide +kernel

/-- A transaction in a full block writes to the next block only, and reports two. -/
theorem full_block_counted : ∃ A w, smallArena true 64 = some A ∧
    w = run World.step (World.start A) [.request noMemory ⟨.raw 64 1,false⟩] ∧
    Reached Honest w ∧
    Succeeds (w.step .begin) (.guarded (oneBlock 128 8192) ⟨.raw 8 1,false⟩) ∧
    (touched w.clock
      ((w.step .begin).step (.guarded (oneBlock 128 8192) ⟨.raw 8 1,false⟩))).card = 1 ∧
    ¬ Counted w.clock
      ((w.step .begin).step (.guarded (oneBlock 128 8192) ⟨.raw 8 1,false⟩)) := by
  obtain ⟨A,hA⟩ : ∃ A, smallArena true 64 = some A := ⟨_,rfl⟩
  refine ⟨A,_,hA,rfl,?_,⟨⟨?_,show 8 < 2^64 by norm_num⟩,Or.inr (@replied _ _ 8192 ?_)⟩,?_,?_⟩
  · exact reached_small (by norm_num) hA _ ⟨⟨grants_noMemory _,show 64 < 2^64 by norm_num⟩,trivial⟩
  · apply grants_second (by norm_num [minBlockAlign]) (by norm_num [addressTop])
    all_goals
      cases hA
      decide +kernel
  · cases hA
    decide +kernel
  · cases hA
    decide +kernel
  · intro hcounted
    have htold := counted_told hcounted
    revert htold
    cases hA
    decide +kernel

end FastArena.BlocksTouched
