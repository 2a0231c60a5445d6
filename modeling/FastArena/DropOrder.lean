import FastArena.RegionSafety
import FastArena.ArenaSteps

/-!
# Destructors, once and in order

While checkpoints are used in the order of a stack, the registry lists what the
live grants owe, oldest first, and a valid checkpoint's saved length counts
what was owed when it was taken. What a rewind reclaims and what it destroys
are then the same, newest first.
-/

set_option autoImplicit false

namespace FastArena.DropOrder
open FastArena.MachineWord FastArena.ByteSpan FastArena.ArenaBlock FastArena.InlineStorage
  FastArena.DropTracking FastArena.ArenaCore FastArena.ArenaInvariant FastArena.RawRequest
  FastArena.ArenaSweep FastArena.ArenaRequests FastArena.ArenaTransaction FastArena.LabelledRun
  FastArena.ArenaWorld FastArena.ArenaSteps FastArena.RegionSafety

def elems (g : Grant) : List (ℕ × ℕ × DropSlot) :=
  g.owes.flatMap (fun s => (List.range s.count).map (fun k => (g.stamp,k,s)))

def Drop.key (d : Drop) : ℕ × ℕ × DropSlot := (d.owner,d.elem,d.slot)

def dropsAt (time : ℕ) (g : Grant) : List Drop :=
  (elems g).map (fun e => ⟨time,e.1,e.2.1,e.2.2⟩)

def reclaimed (w w' : World) : List Grant :=
  w.live.filter (fun g => ∀ g' ∈ w'.live, g'.stamp ≠ g.stamp)

def Owing (g : Grant) : Prop := g.owes = [] ∨ ∃ s, g.owes = [s] ∧ s.extent = g.region.span

theorem owing_extent {g : Grant} (h : Owing g) {s : DropSlot} (hs : g.owes = [s]) :
    s.extent = g.region.span := by
  rcases h with hnone | ⟨s',hs',hextent⟩
  · exact nomatch hnone.symm.trans hs
  · obtain rfl := List.singleton_inj.mp (hs.symm.trans hs')
    exact hextent

theorem owed_single (k : Kind) (p : ℕ) : k.owed p = [] ∨ ∃ s, k.owed p = [s] := by
  have hsingle : ∀ (c : Prop) [Decidable c] (s : DropSlot),
      (if c then [s] else []) = [] ∨ ∃ s', (if c then [s] else []) = [s'] := by
    intro c _ s
    split
    · exact Or.inr ⟨s,rfl⟩
    · exact Or.inl rfl
  cases k with
  | value ty => exact hsingle _ _
  | slice ty len yields => exact hsingle _ _
  | sliceCopy ty len => exact hsingle _ _
  | str len => exact Or.inl rfl
  | uninit ty => exact Or.inl rfl
  | raw size align => exact Or.inl rfl
  | zeroed size align => exact Or.inl rfl
  | cacheAligned size => exact Or.inl rfl

section calls
variable {w : World}

theorem take_carved {k : Kind} {o : Outcome} {size align p : ℕ} {A₁ : Arena}
    (hcarved : Carved w.arena size align p A₁) (hcarve : o.carved = some ⟨⟨p,size⟩,align⟩)
    (hfills : Fills k size p A₁ o) : ∃ g : Grant, g.stamp = w.clock ∧ g.region.span = ⟨p,size⟩ ∧
      g.owes = (if w.arena.dropRegistry.isTracking then k.owed p else []) ∧ Owing g ∧
      (w.take o).live = g :: w.live ∧ (w.take o).issued = g :: w.issued ∧
      (w.take o).arena.dropRegistry.entries = w.arena.dropRegistry.entries ++ g.owes ∧
      (w.take o).owners = w.owners ++ List.replicate g.owes.length w.clock ∧
      position w.arena ≤ g.piece.lo ∧ g.piece.lo ≤ g.piece.hi ∧
      g.piece.hi = position (w.take o).arena := by
  have hextent := hfills.owed_extent
  obtain ⟨registry,harena,-,hentries⟩ := hfills.arena_eq
  rw [hcarved.registry] at hentries
  have hgrant := grantOf_carved (w := w) hcarve harena
  have howes : o.arena.dropRegistry.entries.drop w.arena.dropRegistry.len =
      if w.arena.dropRegistry.isTracking then k.owed p else [] := by
    rw [harena, hentries, DropRegistry.len_entries, List.drop_left]
  rw [howes] at hgrant
  have hlen : o.arena.dropRegistry.len - w.arena.dropRegistry.len =
      (if w.arena.dropRegistry.isTracking then k.owed p else []).length := by
    rw [harena, DropRegistry.len_entries, DropRegistry.len_entries, hentries, List.length_append,
      Nat.add_sub_cancel_left]
  refine ⟨⟨w.clock,A₁.current,p - A₁.curBase,⟨⟨p,size⟩,align⟩,o.wrote,
    if w.arena.dropRegistry.isTracking then k.owed p else []⟩,
    rfl,rfl,rfl,?_,?_,?_,?_,?_,hcarved.above,?_,(position_carved hcarved harena).symm⟩
  · unfold Owing
    dsimp only
    split
    · rcases owed_single k p with hnone | ⟨s,hs⟩
      · exact Or.inl hnone
      · exact Or.inr ⟨s,hs,hextent s (hs ▸ List.mem_singleton_self s)⟩
    · exact Or.inl rfl
  · change w.grantOf o ++ w.live = _
    rw [hgrant, List.singleton_append]
  · change w.grantOf o ++ w.issued = _
    rw [hgrant, List.singleton_append]
  · change o.arena.dropRegistry.entries = _
    rw [harena, hentries]
  · rw [World.take, hlen]
  · rw [Grant.piece, Prod.Lex.toLex_le_toLex]
    exact Or.inr ⟨rfl,Nat.le_add_right _ _⟩

theorem take_answer {A' : Arena} (hregistry : A'.dropRegistry = w.arena.dropRegistry) (ret : Ret)
    (lost : ℕ) : (w.take (answer A' ret lost)).owners = w.owners := by
  unfold World.take answer
  dsimp only
  rw [hregistry, Nat.sub_self, List.replicate_zero, List.append_nil]

end calls

def due (live : List Grant) : List (DropSlot × ℕ) :=
  live.reverse.flatMap (fun g => g.owes.map (·,g.stamp))

theorem due_append (newer older : List Grant) : due (newer++older) = due older ++ due newer := by
  simp [due]

theorem due_cons (g : Grant) (live : List Grant) :
    due (g::live) = due live ++ g.owes.map (·,g.stamp) := by simp [due]

theorem split_newest {live : List Grant} (h : live.Pairwise (fun a b => b.stamp < a.stamp))
    (since : ℕ) : live = live.filter (since ≤ ·.stamp) ++ live.filter (·.stamp < since) := by
  induction live with
  | nil => rfl
  | cons g rest ih =>
    obtain ⟨hg,hrest⟩ := List.pairwise_cons.mp h
    by_cases hle : since ≤ g.stamp
    · rw [List.filter_cons_of_pos (by simpa using hle),
        List.filter_cons_of_neg (by simpa using hle), List.cons_append, ← ih hrest]
    · have hnone : rest.filter (since ≤ ·.stamp) = [] := by
        apply List.filter_eq_nil_iff.mpr
        intro g' hg'
        have := hg g' hg'
        simp only [decide_eq_true_eq]
        omega
      have hall : rest.filter (·.stamp < since) = rest := by
        apply List.filter_eq_self.mpr
        intro g' hg'
        have := hg g' hg'
        simp only [decide_eq_true_eq]
        omega
      rw [List.filter_cons_of_neg (by simpa using hle),
        List.filter_cons_of_pos (by simpa using hle), hnone, hall]
      rfl

theorem zipIdx_owners (es : List DropSlot) (os : List ℕ) (h : os.length = es.length) :
    es.zipIdx.map (fun e => (e.1,os.getD e.2 0)) = es.zip os := by
  apply List.ext_getElem
  · simp [h]
  · intro i hi hi'
    simp only [List.length_map, List.length_zipIdx] at hi
    simp [List.getD_eq_getElem?_getD, List.getElem?_eq_getElem (h ▸ hi)]

theorem calls_owned (es : List DropSlot) (os : List ℕ) (h : os.length = es.length)
    (target time : ℕ) :
    (callsUntil quiet target es).map (fun c => (⟨time,os.getD c.entry 0,c.elem,c.slot⟩ : Drop)) =
      ((es.zip os).drop target).reverse.flatMap
        (fun e => (List.range e.1.count).map (fun k => ⟨time,e.2,k,e.1⟩)) := by
  rw [← zipIdx_owners es os h, ← List.map_drop, ← List.map_reverse, List.flatMap_map,
    callsUntil, List.map_flatMap]
  apply List.flatMap_congr
  intro e _
  rw [runSlot_quiet, List.map_map]
  rfl

theorem zip_replicate_length (slots : List DropSlot) (stamp : ℕ) :
    slots.zip (List.replicate slots.length stamp) = slots.map (·,stamp) := by
  induction slots with
  | nil => rfl
  | cons s slots ih => rw [List.length_cons, List.replicate_succ, List.zip_cons_cons, ih]; rfl

/-- The registry lists what the live grants owe. A valid checkpoint saved how much of it was there
when it was taken, and lies below what came later. -/
structure Coupled (w : World) : Prop where
  registry : w.arena.dropRegistry.entries.zip w.owners = due w.live
  marks : ∀ m ∈ w.marks, m.stamp ∈ w.valid →
    m.cp.dropRegistryLen = (due (w.live.filter (·.stamp < m.stamp))).length
  above : ∀ m ∈ w.marks, m.stamp ∈ w.valid → ∀ g ∈ w.live, m.stamp ≤ g.stamp →
    place m.cp ≤ g.piece.lo
  owing : ∀ g ∈ w.issued, Owing g

section coupled
variable {w : World}

theorem live_newest (hinv : Inv w) : w.live.Pairwise (fun a b => b.stamp < a.stamp) :=
  List.pairwise_map.mp (hinv.sound.newest_first.sublist hinv.sound.live_issued)

theorem live_past (hinv : Inv w) {g : Grant} (hg : g ∈ w.live) : g.stamp < w.clock :=
  hinv.sound.issued_past g.piece (List.mem_map_of_mem (hinv.live_issued.subset hg))

theorem mark_past (hinv : Inv w) {m : Mark} (hm : m ∈ w.marks) : m.stamp < w.clock :=
  hinv.sound.marks_past m.spot (List.mem_map_of_mem hm)

theorem len_owners (hinv : Inv w) : w.owners.length = w.arena.dropRegistry.entries.length :=
  hinv.owners.trans w.arena.dropRegistry.len_entries

theorem due_length (hinv : Inv w) (h : Coupled w) :
    (due w.live).length = w.arena.dropRegistry.len := by
  rw [← h.registry, List.length_zip, len_owners hinv, Nat.min_self, DropRegistry.len_entries]

theorem coupled_still (h : Coupled w) {w' : World}
    (hregistry : w'.arena.dropRegistry = w.arena.dropRegistry) (howners : w'.owners = w.owners)
    (hlive : w'.live = w.live) (hissued : w'.issued = w.issued) (hmarks : w'.marks = w.marks)
    (hvalid : w'.valid = w.valid) : Coupled w' where
  registry := by
    rw [hregistry, howners, hlive]
    exact h.registry
  marks := by
    rw [hmarks, hvalid, hlive]
    exact h.marks
  above := by
    rw [hmarks, hvalid, hlive]
    exact h.above
  owing := by
    rw [hissued]
    exact h.owing

theorem coupled_served (hinv : Inv w) (hstacked : Stacked w) (h : Coupled w) {sys : SystemAlloc}
    {r : Request} {o : Outcome} (ho : Served sys w.arena r o) : Coupled (w.take o) := by
  cases ho with
  | carved _ _ _ hcarved hcarve hfills =>
    obtain ⟨g,hstamp,-,-,howing,hlive,hissued,hentries,howners,hlo,-,-⟩ :=
      take_carved hcarved hcarve hfills
    refine ⟨?_,?_,?_,?_⟩
    · rw [hentries, howners, hlive, List.zip_append (len_owners hinv).symm, h.registry, due_cons,
        zip_replicate_length, hstamp]
    · intro m hm hv
      have hlt := mark_past hinv hm
      rw [hlive, List.filter_cons_of_neg (by simp only [decide_eq_true_eq]; omega)]
      exact h.marks m hm hv
    · intro m hm hv g' hg' hle
      rw [hlive] at hg'
      rcases List.mem_cons.mp hg' with rfl | hold
      · exact (hstacked.below m hm hv).trans hlo
      · exact h.above m hm hv g' hold hle
    · intro g' hg'
      rw [hissued] at hg'
      rcases List.mem_cons.mp hg' with rfl | hold
      · exact howing
      · exact h.owing g' hold
  | failed _ _ _ _ hunmoved =>
    exact coupled_still h hunmoved.registry (take_answer hunmoved.registry _ _) rfl rfl rfl rfl
  | answered _ => exact coupled_still h rfl (take_answer rfl _ _) rfl rfl rfl rfl

theorem coupled_note (hinv : Inv w) (h : Coupled w) : Coupled (w.note w.arena.checkpoint) := by
  have hold : ∀ m ∈ w.marks, m.stamp ∈ (w.note w.arena.checkpoint).valid → m.stamp ∈ w.valid := by
    intro m hm hv
    rcases List.mem_cons.mp hv with heq | hv
    · exact absurd heq (Nat.ne_of_lt (mark_past hinv hm))
    · exact hv
  refine ⟨h.registry,?_,?_,h.owing⟩
  · intro m hm hv
    rcases List.mem_cons.mp hm with rfl | hm
    · have hall : w.live.filter (·.stamp < w.clock) = w.live :=
        List.filter_eq_self.mpr (fun g hg => decide_eq_true (live_past hinv hg))
      change w.arena.dropRegistry.len = (due (w.live.filter (·.stamp < w.clock))).length
      rw [hall, due_length hinv h]
    · exact h.marks m hm (hold m hm hv)
  · intro m hm hv g hg hle
    rcases List.mem_cons.mp hm with rfl | hm
    · exact absurd (live_past hinv hg) (Nat.not_lt.mpr hle)
    · exact h.above m hm (hold m hm hv) g hg hle

structure Matched (w : World) (s : Swept) (since target : ℕ) : Prop where
  panic : s.panic = none
  calls : s.calls = callsUntil quiet target w.arena.dropRegistry.entries
  entries : s.arena.dropRegistry.entries = w.arena.dropRegistry.entries.take target
  target : target = (due (w.live.filter (·.stamp < since))).length
  freed : ∀ g ∈ w.live, since ≤ g.stamp → position s.arena ≤ g.piece.lo

theorem due_split (hinv : Inv w) (since : ℕ) : due w.live =
    due (w.live.filter (·.stamp < since)) ++ due (w.live.filter (since ≤ ·.stamp)) := by
  rw [← due_append, ← split_newest (live_newest hinv)]

theorem live_sweep {s : Swept} {since target : ℕ} (hs : Matched w s since target) :
    (w.sweep s since).live = w.live.filter (·.stamp < since) := if_pos hs.panic

theorem owners_sweep (hinv : Inv w) {s : Swept} (since : ℕ) {target : ℕ}
    (hentries : s.arena.dropRegistry.entries = w.arena.dropRegistry.entries.take target) :
    (w.sweep s since).owners = w.owners.take target := by
  have hlen : s.arena.dropRegistry.len = min target w.arena.dropRegistry.entries.length := by
    rw [DropRegistry.len_entries, hentries, List.length_take]
  change w.owners.take s.arena.dropRegistry.len = _
  rw [hlen, ← len_owners hinv, List.take_eq_take_iff]
  omega

theorem zip_sweep (hinv : Inv w) {s : Swept} (since : ℕ) {target : ℕ}
    (hentries : s.arena.dropRegistry.entries = w.arena.dropRegistry.entries.take target) :
    s.arena.dropRegistry.entries.zip (w.sweep s since).owners =
      (w.arena.dropRegistry.entries.zip w.owners).take target := by
  rw [owners_sweep hinv since hentries, hentries]
  exact List.take_zipWith.symm

theorem coupled_sweep (hinv : Inv w) (h : Coupled w) {s : Swept} {since target : ℕ}
    (hs : Matched w s since target) : Coupled (w.sweep s since) where
  registry := by
    change s.arena.dropRegistry.entries.zip (w.sweep s since).owners = _
    rw [live_sweep hs, zip_sweep hinv since hs.entries, h.registry, due_split hinv since, hs.target,
      List.take_left]
  marks := by
    intro m hm hv
    obtain ⟨hpast,hle⟩ := mem_valid_sweep hv
    rw [live_sweep hs, List.filter_filter, h.marks m hm hpast]
    congr 2
    apply List.filter_congr
    intro g _
    have hiff : (g.stamp < m.stamp) ↔ (g.stamp < m.stamp ∧ g.stamp < since) := by omega
    simpa using hiff
  above := by
    intro m hm hv g hg hle
    rw [live_sweep hs] at hg
    exact h.above m hm (mem_valid_sweep hv).1 g (List.mem_of_mem_filter hg) hle
  owing := h.owing

/-- Such a sweep logs the calls of the grants it reclaims, newest first. -/
theorem drops_sweep (hinv : Inv w) (h : Coupled w) {s : Swept} {since target : ℕ}
    (hs : Matched w s since target) : (w.sweep s since).drops =
      w.drops ++ (w.live.filter (since ≤ ·.stamp)).flatMap (dropsAt w.clock) := by
  have hgone : (w.arena.dropRegistry.entries.zip w.owners).drop target =
      due (w.live.filter (since ≤ ·.stamp)) := by
    rw [h.registry, due_split hinv since, hs.target, List.drop_left]
  change w.drops ++ s.calls.map _ = _
  rw [hs.calls, calls_owned _ _ (len_owners hinv), hgone, due, List.reverse_flatMap,
    List.reverse_reverse, List.flatMap_assoc]
  congr 1
  apply List.flatMap_congr
  intro g hg
  rw [dropsAt, elems]
  rcases h.owing g (hinv.live_issued.subset (List.mem_of_mem_filter hg)) with
    hnone | ⟨slot,hslot,-⟩
  · simp [hnone]
  · simp [hslot]

def Quiet : Op → Prop
  | .rewind boom _ => boom = quiet
  | .reset boom => boom = quiet
  | .rollback boom => boom = quiet
  | _ => True

/-- Rewinds to valid checkpoints only, and destructors that do not panic. -/
def Orderly (w : World) (op : Op) : Prop := Permitted w op ∧ Quiet op

theorem matched_rewind (hinv : Inv w) (h : Coupled w) {m : Mark} (hm : m ∈ w.marks)
    (hmv : m.stamp ∈ w.valid) :
    Matched w (w.arena.rewind quiet m.cp) m.stamp m.cp.dropRegistryLen := by
  obtain ⟨hcalls,hregistry,hcases⟩ := rewind_cases quiet hinv.wf (hinv.recallable m hm)
  rw [DropRegistry.panicked_runDropsUntil_quiet] at hcases
  rcases hcases with ⟨-,hpanic,-⟩ | ⟨hquiet,-,hrewound⟩
  · cases hpanic
  · refine ⟨hquiet,hcalls,?_,h.marks m hm hmv,?_⟩
    · rw [hregistry, DropRegistry.entries_runDropsUntil]
    · intro g hg hle
      rw [rewound_position hrewound]
      exact h.above m hm hmv g hg hle

theorem matched_reset (hinv : Inv w) : Matched w (w.arena.reset quiet) 0 0 := by
  obtain ⟨hcalls,hregistry,hcases⟩ := reset_cases quiet hinv.wf
  rw [DropRegistry.runAllDrops, DropRegistry.panicked_runDropsUntil_quiet] at hcases
  rcases hcases with ⟨-,hpanic,-⟩ | ⟨hquiet,-,hemptied⟩
  · cases hpanic
  · refine ⟨hquiet,hcalls,?_,?_,?_⟩
    · rw [hregistry, DropRegistry.runAllDrops, DropRegistry.entries_runDropsUntil]
    · have hnone : w.live.filter (·.stamp < 0) = [] :=
        List.filter_eq_nil_iff.mpr (fun g _ => by simp)
      rw [hnone]
      rfl
    · intro g _ _
      rw [emptied_position hemptied, Grant.piece, Prod.Lex.toLex_le_toLex]
      rcases Nat.eq_zero_or_pos g.lane with hzero | hpos
      · exact Or.inr ⟨hzero.symm,Nat.zero_le _⟩
      · exact Or.inl hpos

theorem coupled_depth (h : Coupled w) (n : ℕ) : Coupled (atDepth w n) :=
  ⟨h.registry,h.marks,h.above,h.owing⟩

theorem reclaimed_nil {w' : World} {new : List Grant} (hlive : w'.live = new ++ w.live) :
    reclaimed w w' = [] := by
  apply List.filter_eq_nil_iff.mpr
  intro g hg hgone
  have hall := of_decide_eq_true hgone
  exact hall g (hlive ▸ List.mem_append_right _ hg) rfl

theorem reclaimed_sweep {w' : World} {since : ℕ}
    (hlive : w'.live = w.live.filter (·.stamp < since)) :
    reclaimed w w' = w.live.filter (since ≤ ·.stamp) := by
  apply List.filter_congr
  intro g hg
  apply decide_eq_decide.mpr
  rw [hlive]
  refine ⟨?_,?_⟩
  · intro hall
    by_contra hlt
    exact hall g (List.mem_filter.mpr ⟨hg,decide_eq_true (Nat.not_le.mp hlt)⟩) rfl
  · intro hle g' hg'
    have hlt := of_decide_eq_true (List.mem_filter.mp hg').2
    omega

structure Logged (w w' : World) : Prop where
  coupled : Coupled w'
  drops : w'.drops = w.drops ++ (reclaimed w w').flatMap (dropsAt w.clock)
  live : ∃ new kept, w'.live = new ++ kept ∧ w.live = reclaimed w w' ++ kept ∧
    w'.issued = new ++ w.issued
  freed : ∀ g ∈ reclaimed w w', position w'.arena ≤ g.piece.lo

theorem logged_still {w' : World} (h : Coupled w') (hdrops : w'.drops = w.drops)
    (new : List Grant) (hlive : w'.live = new ++ w.live) (hissued : w'.issued = new ++ w.issued) :
    Logged w w' where
  coupled := h
  drops := by
    rw [reclaimed_nil hlive, hdrops]
    exact (List.append_nil _).symm
  live := ⟨new,w.live,hlive,by rw [reclaimed_nil hlive]; rfl,hissued⟩
  freed := by
    rw [reclaimed_nil hlive]
    exact nofun

theorem logged_sweep (hinv : Inv w) (h : Coupled w) {s : Swept} {since target : ℕ}
    (hs : Matched w s since target) : Logged w (w.sweep s since) where
  coupled := coupled_sweep hinv h hs
  drops := by
    rw [reclaimed_sweep (live_sweep hs)]
    exact drops_sweep hinv h hs
  live := by
    refine ⟨[],_,live_sweep hs,?_,rfl⟩
    rw [reclaimed_sweep (live_sweep hs)]
    exact split_newest (live_newest hinv) since
  freed := by
    intro g hg
    rw [reclaimed_sweep (live_sweep hs)] at hg
    obtain ⟨hlive,hle⟩ := List.mem_filter.mp hg
    exact hs.freed g hlive (of_decide_eq_true hle)

theorem logged_step (hinv : Inv w) (hstacked : Stacked w) (h : Coupled w) {op : Op}
    (hop : Orderly w op) : Logged w (w.step op) := by
  obtain ⟨⟨hhonest,hvalid⟩,hquiet⟩ := hop
  have hstep := stepped hinv hhonest
  generalize w.step op = w' at hstep
  cases hstep with
  | served _ _ hserved =>
    exact logged_still (coupled_served hinv hstacked h hserved) rfl _ rfl rfl
  | @declined ret lost _ =>
    have hstill : Coupled (w.take (answer w.arena ret lost)) :=
      coupled_still h rfl (take_answer rfl ret lost) rfl rfl rfl rfl
    exact logged_still hstill rfl [] rfl rfl
  | ticked _ => exact logged_still (coupled_still h rfl rfl rfl rfl rfl rfl) rfl [] rfl rfl
  | noted _ =>
    have hc := coupled_note hinv h
    exact logged_still ⟨hc.registry,hc.marks,hc.above,hc.owing⟩ rfl [] rfl rfl
  | @rewound boom n m opened hm htarget hboom _ =>
    have hcalm : boom = quiet := by
      rcases hboom with rfl | rfl
      · exact hquiet
      · exact hquiet
    subst hcalm
    have hl := logged_sweep (inv_depth hinv n) (coupled_depth h n)
      (matched_rewind (inv_depth hinv n) (coupled_depth h n) hm (htarget _ hvalid))
    have hc := hl.coupled
    exact ⟨⟨hc.registry,hc.marks,hc.above,hc.owing⟩,hl.drops,hl.live,hl.freed⟩
  | @reset boom hboom =>
    subst hboom
    obtain rfl : boom = quiet := hquiet
    exact logged_sweep hinv h (matched_reset hinv)

theorem key_dropsAt (time : ℕ) (g : Grant) : (dropsAt time g).map Drop.key = elems g := by
  rw [dropsAt, List.map_map]
  exact List.map_id _

/-- What was issued is live or dead, and the log holds what the dead owed, once. -/
def Settled (w : World) : Prop := ∃ dead, (w.live ++ dead).Perm w.issued ∧
  (w.drops.map Drop.key).Perm (dead.flatMap elems)

theorem settled_step {w' : World} (h : Settled w) (hl : Logged w w') : Settled w' := by
  obtain ⟨dead,hissued,hdrops⟩ := h
  obtain ⟨new,kept,hlive',hlive,hissued'⟩ := hl.live
  refine ⟨reclaimed w w' ++ dead,?_,?_⟩
  · rw [hlive', hissued', List.append_assoc]
    apply List.Perm.append_left
    rw [hlive, List.append_assoc] at hissued
    exact (List.perm_append_comm_assoc _ _ _).trans hissued
  · rw [hl.drops, List.map_append, List.map_flatMap, List.flatMap_append]
    simp only [key_dropsAt]
    exact (List.Perm.append_right _ hdrops).trans List.perm_append_comm

end coupled

theorem settled_reached {w : World} (h : Reached Orderly w) :
    Inv w ∧ Stacked w ∧ Coupled w ∧ Settled w := by
  obtain ⟨sys,feature,initialBytes,A,ops,hs,hA,halong,rfl⟩ := h
  obtain ⟨hwf,-,-,-,-,hregistry⟩ := wf_withCapacity hs hA
  have hentries : A.dropRegistry.entries = [] := by rw [hregistry, DropRegistry.entries_new]
  have hcoupled : Coupled (World.start A) := by
    refine ⟨?_,nofun,nofun,nofun⟩
    change A.dropRegistry.entries.zip [] = []
    rw [hentries]
    rfl
  have hsettled : Settled (World.start A) := ⟨[],List.Perm.refl _,List.Perm.refl _⟩
  exact run_invariant World.step Orderly
    (fun w => Inv w ∧ Stacked w ∧ Coupled w ∧ Settled w)
    (fun w op hw hop =>
      have hl := logged_step hw.1 hw.2.1 hw.2.2.1 hop
      ⟨inv_step hw.1 hop.1.1,stacked_step hw.1 hw.2.1 hop.1.1 hop.1.2,hl.coupled,
        settled_step hw.2.2.2 hl⟩)
    _ ops ⟨inv_start hwf hentries,stacked_start A,hcoupled,hsettled⟩ halong

/-- Destructors run once and in order. A call destroys what it reclaims, newest first, and nothing
else; what it reclaims was not issued again before and is free afterwards; over the whole run
every grant that is not live was destroyed once; and a value's grant owes its destructor. -/
theorem destructors_once {w : World} (h : Reached Orderly w) :
    (∀ op, Orderly w op →
      (w.step op).drops = w.drops ++ (reclaimed w (w.step op)).flatMap (dropsAt w.clock) ∧
        ∀ g ∈ reclaimed w (w.step op), position (w.step op).arena ≤ g.piece.lo) ∧
    w.live.Pairwise (fun a b => b.stamp < a.stamp) ∧
    (∀ g ∈ w.live, g.piece.hi ≤ position w.arena ∧ ∀ g' ∈ w.issued, g.stamp < g'.stamp →
      g.region.span.Apart g'.region.span ∧ ∀ s ∈ g'.wrote, g.region.span.Apart s) ∧
    Settled w ∧ w.issued.Pairwise (fun a b => b.stamp < a.stamp) ∧
    ∀ sys r o p size align, Grants sys w.arena.blocks → r.Typed →
      (o = r.serve sys w.arena ∨ ∃ f ∈ w.opened, o = f.txn.serve sys w.arena r) →
      o.ret = .ptr p → r.kind.demand = some (size,align) →
      w.arena.dropRegistry.isTracking = true →
      ∃ g, (w.take o).live = g :: w.live ∧ g.stamp = w.clock ∧ g.region.span = ⟨p,size⟩ ∧
        g.owes = r.kind.owed p := by
  obtain ⟨hinv,hstacked,hcoupled,hsettled⟩ := settled_reached h
  refine ⟨?_,live_newest hinv,fun g hg => live_untouched hinv hg,hsettled,
    List.pairwise_map.mp hinv.sound.newest_first,?_⟩
  · intro op hop
    have hl := logged_step hinv hstacked hcoupled hop
    exact ⟨hl.drops,hl.freed⟩
  · intro sys r o p size align hs hr ho hret hd htrack
    cases served_call hinv ⟨hs,hr⟩ ho hret with
    | carved hd' _ _ hcarved hcarve hfills =>
      obtain ⟨rfl,rfl⟩ := demand_unique hd hd'
      obtain ⟨g,hstamp,hspan,howes,-,hlive,-⟩ := take_carved hcarved hcarve hfills
      rw [htrack, if_pos rfl] at howes
      have hreply := hfills.ret_eq.symm.trans hret
      unfold Kind.reply at hreply
      split at hreply
      · cases hreply
        exact ⟨g,hlive,hstamp,hspan,howes⟩
      · cases hreply
    | failed _ _ _ hno _ => exact absurd hret (hno p)
    | answered hnone => exact nomatch hd.symm.trans hnone

def orderedCalls : List Op :=
  [.request noMemory ⟨.value eightBytes,false⟩,.checkpoint,
    .request noMemory ⟨.slice eightBytes 2 2,true⟩,.request noMemory ⟨.value eightBytes,true⟩,
    .rewind quiet 2,.reset quiet]

theorem destructors_once_orderedCalls : ∃ A, smallArena true 64 = some A ∧
    Settled (run World.step (World.start A) orderedCalls) ∧
      (run World.step (World.start A) orderedCalls).drops.map (fun d => (d.time,d.owner,d.elem)) =
        [(5,4,0),(5,3,0),(5,3,1),(6,1,0)] := by
  obtain ⟨A,hA⟩ : ∃ A, smallArena true 64 = some A := ⟨_,rfl⟩
  have hreached : Reached Orderly (run World.step (World.start A) orderedCalls) := by
    apply reached_small (by norm_num) hA
    have hlen : (2 : ℕ) < 2^64 := by norm_num
    refine ⟨⟨⟨⟨grants_noMemory _,trivial⟩,trivial⟩,trivial⟩,⟨⟨trivial,trivial⟩,trivial⟩,
      ⟨⟨⟨grants_noMemory _,hlen⟩,trivial⟩,trivial⟩,⟨⟨⟨grants_noMemory _,trivial⟩,trivial⟩,trivial⟩,
      ⟨⟨trivial,?_⟩,rfl⟩,⟨⟨trivial,trivial⟩,rfl⟩,trivial⟩
    exact List.mem_cons_self
  obtain ⟨-,-,-,hsettled,-⟩ := destructors_once hreached
  refine ⟨A,hA,hsettled,?_⟩
  cases hA
  decide +kernel

end FastArena.DropOrder
