import FastArena.BoxDrops
import FastArena.FullDrain

/-!
# Values registered by hand

`register_drop` takes a value that was written into the arena some other way,
at any later time. A checkpoint between the two splits them: going back to it
destroys the value and leaves its memory. Still the registry never outlives the
memory it points to, and every destructor finds memory not handed out again.
-/

set_option autoImplicit false

namespace FastArena.ManualDrops
open FastArena.MachineWord FastArena.ByteSpan FastArena.ArenaBlock FastArena.InlineStorage
  FastArena.DropTracking FastArena.ArenaCore FastArena.ArenaInvariant FastArena.RawRequest
  FastArena.ArenaSweep FastArena.ArenaRequests FastArena.ArenaTransaction FastArena.LabelledRun
  FastArena.ArenaWorld FastArena.ArenaSteps FastArena.RegionSafety FastArena.DropOrder
  FastArena.BoxDrops

def registerDrop (ty : Ty) (ptr : ℕ) (A : Arena) : Arena :=
  { A with dropRegistry := A.dropRegistry.register ty ptr }

inductive Move where
  | call (op : Op)
  | registerDrop (ty : Ty) (ptr : ℕ)

def step (w : World) : Move → World
  | .call op => w.step op
  | .registerDrop ty ptr => w.take (answer (registerDrop ty ptr w.arena) .none 0)

/-- What the method asks of its caller: the pointer is to memory that the arena has handed out and
not taken back. Rewinds go to valid checkpoints. -/
def Sanctioned (w : World) : Move → Prop
  | .call op => Permitted w op
  | .registerDrop ty ptr => ∃ g ∈ w.live, (⟨ptr,ty.size⟩ : Span).Within g.region.span

def Met (w : World) : Prop :=
  ∃ sys feature initialBytes A moves, Grants sys (InlineVec.new : Blocks) ∧
    Arena.withCapacity sys feature initialBytes = some A ∧
    Along step Sanctioned (World.start A) moves ∧ w = run step (World.start A) moves

def Backed (w : World) (i : ℕ) (s : DropSlot) (t : ℕ) : Prop :=
  ∃ g ∈ w.live, s.extent.Within g.region.span ∧ g.stamp ≤ t ∧
    ∀ m ∈ w.marks, m.stamp ∈ w.valid → i < m.cp.dropRegistryLen → g.stamp < m.stamp

/-- Every destructor that was run found memory that had not been handed out again. -/
def FoundIntact (w : World) : Prop :=
  ∀ d ∈ w.drops, ∃ g ∈ w.issued, g.stamp ≤ d.owner ∧ d.slot.extent.Within g.region.span ∧
    ∀ g' ∈ w.issued, g.stamp < g'.stamp → g'.stamp < d.time →
      d.slot.extent.Apart g'.region.span ∧ ∀ s ∈ g'.wrote, d.slot.extent.Apart s

structure Once (w : World) : Prop where
  dated : Dated w
  owners : w.owners.Nodup
  drops : (w.drops.map (fun d => (d.owner,d.elem))).Nodup
  spent : ∀ d ∈ w.drops, d.owner ∉ w.owners

structure Grounded (w : World) : Prop where
  backed : ∀ i s t, w.arena.dropRegistry.entries[i]? = some s → w.owners[i]? = some t →
    Backed w i s t
  below : ∀ m ∈ w.marks, m.stamp ∈ w.valid → m.cp.dropRegistryLen ≤ w.arena.dropRegistry.len
  order : ∀ m ∈ w.marks, ∀ k ∈ w.marks, m.stamp ∈ w.valid → k.stamp ∈ w.valid →
    m.stamp ≤ k.stamp → m.cp.dropRegistryLen ≤ k.cp.dropRegistryLen
  timed : ∀ m ∈ w.marks, m.stamp ∈ w.valid → ∀ i t, w.owners[i]? = some t →
    i < m.cp.dropRegistryLen ∧ t < m.stamp ∨ m.cp.dropRegistryLen ≤ i ∧ m.stamp < t
  intact : FoundIntact w
  past : ∀ d ∈ w.drops, d.time < w.clock
  once : Once w

section once
variable {w w' : World}

theorem once_grown (hinv : Inv w) (h : Once w) {es : List DropSlot} (hone : es.length ≤ 1)
    (hentries : w'.arena.dropRegistry.entries = w.arena.dropRegistry.entries ++ es)
    (howners : w'.owners = w.owners ++ List.replicate es.length w.clock)
    (hdrops : w'.drops = w.drops) (hclock : w'.clock = w.clock+1) : Once w' := by
  have hturn : Turn w none w' := .grown es hone hdrops howners hentries hclock
  refine ⟨dated_turn hinv h.dated hturn,nodup_turn h.dated h.owners hturn,?_,?_⟩
  · rw [hdrops]
    exact h.drops
  · intro d hd
    rw [hdrops] at hd
    rw [howners]
    intro hmem
    rcases List.mem_append.mp hmem with hold | hnew
    · exact h.spent d hd hold
    · exact Nat.ne_of_lt (h.dated.drops d hd) (List.eq_of_mem_replicate hnew)

theorem once_still (hinv : Inv w) (h : Once w)
    (hregistry : w'.arena.dropRegistry = w.arena.dropRegistry) (howners : w'.owners = w.owners)
    (hdrops : w'.drops = w.drops) (hclock : w'.clock = w.clock+1) : Once w' := by
  have hnone : ([] : List DropSlot).length ≤ 1 := Nat.zero_le 1
  apply once_grown hinv h hnone _ _ hdrops hclock
  · rw [hregistry, List.append_nil]
  · exact howners.trans (List.append_nil _).symm

theorem once_same (h : Once w) (howners : w'.owners = w.owners) (hdrops : w'.drops = w.drops)
    (hclock : w'.clock = w.clock) : Once w' := by
  obtain ⟨⟨howner,hdrop⟩,hnodup,honce,hspent⟩ := h
  refine ⟨⟨?_,?_⟩,?_,?_,?_⟩
  · rw [howners, hclock]
    exact howner
  · rw [hdrops, hclock]
    exact hdrop
  · rw [howners]
    exact hnodup
  · rw [hdrops]
    exact honce
  · rw [hdrops, howners]
    exact hspent

theorem once_cut (hinv : Inv w) (h : Once w) {boom : ℕ → ℕ → Bool} {target : ℕ}
    (hdrops : w'.drops = w.drops ++ (callsUntil boom target w.arena.dropRegistry.entries).map
      (fun c => ⟨w.clock,w.owners.getD c.entry 0,c.elem,c.slot⟩))
    (howners : w'.owners = w.owners.take target)
    (hentries : w'.arena.dropRegistry.entries = w.arena.dropRegistry.entries.take target)
    (hclock : w'.clock = w.clock+1) : Once w' := by
  have howner : ∀ c ∈ callsUntil boom target w.arena.dropRegistry.entries,
      w.owners[c.entry]? = some (w.owners.getD c.entry 0) := fun _ hc => call_owner hinv hc
  have hinjective : ∀ {i j : ℕ}, i < w.owners.length → w.owners[i]? = w.owners[j]? → i = j :=
    fun hi heq => (List.getElem?_inj hi h.owners).mp heq
  have hbound : ∀ {i o : ℕ}, w.owners[i]? = some o → i < w.owners.length :=
    fun hget => (List.getElem?_eq_some_iff.mp hget).1
  have hturn : Turn w (some target) w' := .cut hdrops howners hentries hclock
  refine ⟨dated_turn hinv h.dated hturn,nodup_turn h.dated h.owners hturn,?_,?_⟩
  · rw [hdrops, List.map_append, List.map_map, List.nodup_append]
    refine ⟨h.drops,?_,?_⟩
    · have hkeys := FullDrain.callsUntil_nodup boom target w.arena.dropRegistry.entries
      apply List.pairwise_map.mpr
      apply (List.pairwise_map.mp hkeys).imp_of_mem
      intro c c' hc hc' hne heq
      obtain ⟨hsame,helem⟩ := Prod.mk.inj heq
      have hentry : c.entry = c'.entry := by
        apply hinjective (hbound (howner c hc))
        rw [howner c hc, howner c' hc']
        exact congrArg some hsame
      exact hne (Prod.ext hentry helem)
    · intro key hold key' hnew heq
      obtain ⟨d,hd,rfl⟩ := List.mem_map.mp hold
      obtain ⟨c,hc,rfl⟩ := List.mem_map.mp hnew
      have hsame : d.owner = w.owners.getD c.entry 0 := (Prod.mk.inj heq).1
      apply h.spent d hd
      rw [hsame]
      exact List.mem_of_getElem? (howner c hc)
  · intro d hd
    rw [hdrops] at hd
    rw [howners]
    rcases List.mem_append.mp hd with hd | hd
    · exact fun hmem => h.spent d hd (List.mem_of_mem_take hmem)
    · obtain ⟨c,hc,rfl⟩ := List.mem_map.mp hd
      intro hmem
      obtain ⟨j,hj⟩ := List.mem_iff_getElem?.mp hmem
      rw [List.getElem?_take, Option.ite_none_right_eq_some] at hj
      have hentry : j = c.entry := by
        apply hinjective (hbound hj.2)
        rw [hj.2, howner c hc]
      have hcut := (mem_callsUntil hc).1
      omega

end once

section grounded
variable {w w' : World}

/-- A move that takes nothing back and runs no destructor: entries it adds are for live memory. -/
theorem grounded_grown (hinv : Inv w) (h : Grounded w) {es : List DropSlot}
    (hone : es.length ≤ 1)
    (hentries : w'.arena.dropRegistry.entries = w.arena.dropRegistry.entries ++ es)
    (howners : w'.owners = w.owners ++ List.replicate es.length w.clock)
    (hlive : ∀ g ∈ w.live, g ∈ w'.live) (hold : ∀ g ∈ w.issued, g ∈ w'.issued)
    (hissued : ∀ g ∈ w'.issued, g ∈ w.issued ∨ g.stamp = w.clock)
    (hnew : ∀ s ∈ es, ∃ g ∈ w'.live, s.extent.Within g.region.span ∧ g.stamp ≤ w.clock)
    (hmarks : w'.marks = w.marks) (hvalid : w'.valid = w.valid) (hdrops : w'.drops = w.drops)
    (hclock : w'.clock = w.clock+1) : Grounded w' where
  backed := by
    intro i s t hs ht
    rw [hentries] at hs
    rw [howners] at ht
    unfold Backed
    rw [hmarks, hvalid]
    rcases owner_cases ht with ⟨hlt,hold⟩ | ⟨hge,rfl⟩
    · rw [len_owners hinv] at hlt
      rw [List.getElem?_append_left hlt] at hs
      obtain ⟨g,hg,hwithin,hstamp,hcheck⟩ := h.backed i s t hs hold
      exact ⟨g,hlive g hg,hwithin,hstamp,hcheck⟩
    · rw [len_owners hinv] at hge
      rw [List.getElem?_append_right hge] at hs
      obtain ⟨g,hg,hwithin,hstamp⟩ := hnew s (List.mem_of_getElem? hs)
      refine ⟨g,hg,hwithin,hstamp,fun m hm hv hlt => ?_⟩
      have hbelow := h.below m hm hv
      rw [DropRegistry.len_entries] at hbelow
      omega
  below := by
    intro m hm hv
    rw [hmarks] at hm
    rw [hvalid] at hv
    have hbelow := h.below m hm hv
    rw [DropRegistry.len_entries] at hbelow ⊢
    rw [hentries, List.length_append]
    omega
  order := by
    rw [hmarks, hvalid]
    exact h.order
  timed := by
    intro m hm hv i t ht
    rw [hmarks] at hm
    rw [hvalid] at hv
    rw [howners] at ht
    rcases owner_cases ht with ⟨-,hold⟩ | ⟨hge,rfl⟩
    · exact h.timed m hm hv i t hold
    · have hbelow := h.below m hm hv
      have hpast := mark_past hinv hm
      rw [← hinv.owners] at hbelow
      omega
  intact := by
    intro d hd
    rw [hdrops] at hd
    obtain ⟨g,hg,howner,hwithin,hapart⟩ := h.intact d hd
    refine ⟨g,hold g hg,howner,hwithin,?_⟩
    intro g' hg' hlt hbefore
    rcases hissued g' hg' with hgone | hnow
    · exact hapart g' hgone hlt hbefore
    · have hpast := h.past d hd
      omega
  past := by
    intro d hd
    rw [hdrops] at hd
    rw [hclock]
    exact Nat.lt_succ_of_lt (h.past d hd)
  once := once_grown hinv h.once hone hentries howners hdrops hclock

theorem grounded_note (hinv : Inv w) (h : Grounded w)
    (hregistry : w'.arena.dropRegistry = w.arena.dropRegistry) (howners : w'.owners = w.owners)
    (hlive : w'.live = w.live) (hissued : w'.issued = w.issued) (hdrops : w'.drops = w.drops)
    (hmarks : w'.marks = ⟨w.clock,w.arena.checkpoint⟩ :: w.marks)
    (hvalid : w'.valid = w.clock :: w.valid) (hclock : w'.clock = w.clock+1) : Grounded w' := by
  have hold : ∀ m ∈ w.marks, m.stamp ∈ w'.valid → m.stamp ∈ w.valid := by
    intro m hm hv
    rw [hvalid] at hv
    rcases List.mem_cons.mp hv with heq | hv
    · exact absurd heq (Nat.ne_of_lt (mark_past hinv hm))
    · exact hv
  refine ⟨?_,?_,?_,?_,?_,?_,?_⟩
  · intro i s t hs ht
    rw [hregistry] at hs
    rw [howners] at ht
    obtain ⟨g,hg,hwithin,hstamp,hcheck⟩ := h.backed i s t hs ht
    refine ⟨g,by rw [hlive]; exact hg,hwithin,hstamp,fun m hm hv hlt => ?_⟩
    rw [hmarks] at hm
    rcases List.mem_cons.mp hm with rfl | hm
    · exact live_past hinv hg
    · exact hcheck m hm (hold m hm hv) hlt
  · intro m hm hv
    rw [hmarks] at hm
    rw [hregistry]
    rcases List.mem_cons.mp hm with rfl | hm
    · exact le_refl _
    · exact h.below m hm (hold m hm hv)
  · intro m hm k hk hmv hkv hle
    rw [hmarks] at hm hk
    rcases List.mem_cons.mp hk with rfl | hk
    · rcases List.mem_cons.mp hm with rfl | hm
      · exact le_refl _
      · exact h.below m hm (hold m hm hmv)
    · rcases List.mem_cons.mp hm with rfl | hm
      · exact absurd (mark_past hinv hk) (Nat.not_lt.mpr hle)
      · exact h.order m hm k hk (hold m hm hmv) (hold k hk hkv) hle
  · intro m hm hv i t ht
    rw [hmarks] at hm
    rw [howners] at ht
    rcases List.mem_cons.mp hm with rfl | hm
    · have hlt := (List.getElem?_eq_some_iff.mp ht).1
      rw [hinv.owners] at hlt
      exact Or.inl ⟨hlt,h.once.dated.owners t (List.mem_of_getElem? ht)⟩
    · exact h.timed m hm (hold m hm hv) i t ht
  · unfold FoundIntact
    rw [hdrops, hissued]
    exact h.intact
  · intro d hd
    rw [hdrops] at hd
    rw [hclock]
    exact Nat.lt_succ_of_lt (h.past d hd)
  · exact once_still hinv h.once hregistry howners hdrops hclock

/-- Cutting the registry: the entries that are kept keep their memory, and the destructors of the
others find theirs. -/
theorem grounded_cut (hinv : Inv w) (h : Grounded w) {boom : ℕ → ℕ → Bool} {target : ℕ}
    (hdrops : w'.drops = w.drops ++ (callsUntil boom target w.arena.dropRegistry.entries).map
      (fun c => ⟨w.clock,w.owners.getD c.entry 0,c.elem,c.slot⟩))
    (howners : w'.owners = w.owners.take target)
    (hentries : w'.arena.dropRegistry.entries = w.arena.dropRegistry.entries.take target)
    (hissued : w'.issued = w.issued) (hmarks : w'.marks = w.marks)
    (hvalid : ∀ k ∈ w'.valid, k ∈ w.valid) (hclock : w'.clock = w.clock+1)
    (hkept : ∀ g ∈ w.live, ∀ i < target, (∀ m ∈ w.marks, m.stamp ∈ w.valid →
      i < m.cp.dropRegistryLen → g.stamp < m.stamp) → g ∈ w'.live)
    (hlens : ∀ m ∈ w.marks, m.stamp ∈ w'.valid →
      m.cp.dropRegistryLen ≤ min target w.arena.dropRegistry.len) : Grounded w' where
  backed := by
    intro i s t hs ht
    rw [hentries, List.getElem?_take, Option.ite_none_right_eq_some] at hs
    rw [howners, List.getElem?_take, Option.ite_none_right_eq_some] at ht
    obtain ⟨g,hg,hwithin,hstamp,hcheck⟩ := h.backed i s t hs.2 ht.2
    refine ⟨g,hkept g hg i hs.1 hcheck,hwithin,hstamp,fun m hm hv hlt => ?_⟩
    rw [hmarks] at hm
    exact hcheck m hm (hvalid _ hv) hlt
  below := by
    intro m hm hv
    rw [hmarks] at hm
    rw [DropRegistry.len_entries, hentries, List.length_take, ← DropRegistry.len_entries]
    exact hlens m hm hv
  order := by
    intro m hm k hk hmv hkv hle
    rw [hmarks] at hm hk
    exact h.order m hm k hk (hvalid _ hmv) (hvalid _ hkv) hle
  timed := by
    intro m hm hv i t ht
    rw [hmarks] at hm
    rw [howners, List.getElem?_take, Option.ite_none_right_eq_some] at ht
    exact h.timed m hm (hvalid _ hv) i t ht.2
  intact := by
    intro d hd
    rw [hdrops] at hd
    rw [hissued]
    rcases List.mem_append.mp hd with hd | hd
    · exact h.intact d hd
    · obtain ⟨c,hc,rfl⟩ := List.mem_map.mp hd
      obtain ⟨g,hg,hwithin,hstamp,-⟩ :=
        h.backed c.entry c.slot _ (mem_callsUntil hc).2.1 (call_owner hinv hc)
      refine ⟨g,hinv.live_issued.subset hg,hstamp,hwithin,fun g' hg' hlt _ => ?_⟩
      obtain ⟨hapart,hwrote⟩ := (live_untouched hinv hg).2 g' hg' hlt
      exact ⟨apart_of_within hwithin (within_self _) hapart,
        fun s hs => apart_of_within hwithin (within_self _) (hwrote s hs)⟩
  past := by
    intro d hd
    rw [hdrops] at hd
    rw [hclock]
    rcases List.mem_append.mp hd with hd | hd
    · exact Nat.lt_succ_of_lt (h.past d hd)
    · obtain ⟨c,-,rfl⟩ := List.mem_map.mp hd
      exact Nat.lt_succ_self _
  once := once_cut hinv h.once hdrops howners hentries hclock

theorem grounded_still (hinv : Inv w) (h : Grounded w)
    (hregistry : w'.arena.dropRegistry = w.arena.dropRegistry) (howners : w'.owners = w.owners)
    (hlive : w'.live = w.live) (hissued : w'.issued = w.issued) (hmarks : w'.marks = w.marks)
    (hvalid : w'.valid = w.valid) (hdrops : w'.drops = w.drops) (hclock : w'.clock = w.clock+1) :
    Grounded w' := by
  have hnone : ([] : List DropSlot).length ≤ 1 := Nat.zero_le 1
  apply grounded_grown hinv h hnone _ _ _ _ _ _ hmarks hvalid hdrops hclock
  · rw [hregistry, List.append_nil]
  · rw [howners, List.length_nil, List.replicate_zero, List.append_nil]
  · rw [hlive]
    exact fun _ hg => hg
  · rw [hissued]
    exact fun _ hg => hg
  · rw [hissued]
    exact fun _ hg => Or.inl hg
  · exact nofun

theorem grounded_served (hinv : Inv w) (h : Grounded w) {sys : SystemAlloc} {r : Request}
    {o : Outcome} (ho : Served sys w.arena r o) : Grounded (w.take o) := by
  cases ho with
  | carved _ _ _ hcarved hcarve hfills =>
    obtain ⟨g,hstamp,-,-,howing,hlive,hissued,hentries,howners,-,-,-⟩ :=
      take_carved hcarved hcarve hfills
    have hone : g.owes.length ≤ 1 := by
      rcases howing with hnone | ⟨s,hs,-⟩
      · rw [hnone]
        exact Nat.zero_le 1
      · rw [hs]
        exact le_refl 1
    apply grounded_grown hinv h hone hentries howners _ _ _ _ rfl rfl rfl rfl
    · rw [hlive]
      exact fun _ hg => List.mem_cons_of_mem _ hg
    · rw [hissued]
      exact fun _ hg => List.mem_cons_of_mem _ hg
    · rw [hissued]
      intro g' hg'
      rcases List.mem_cons.mp hg' with rfl | hold
      · exact Or.inr hstamp
      · exact Or.inl hold
    · intro s hs
      refine ⟨g,by rw [hlive]; exact List.mem_cons_self,?_,hstamp.le⟩
      rcases howing with hnone | ⟨s',hs',hextent⟩
      · rw [hnone] at hs
        cases hs
      · obtain rfl : s = s' := by rwa [hs', List.mem_singleton] at hs
        rw [hextent]
        exact within_self _
  | failed _ _ _ _ hunmoved =>
    exact grounded_still hinv h hunmoved.registry (take_answer hunmoved.registry _ _)
      rfl rfl rfl rfl rfl rfl
  | answered _ => exact grounded_still hinv h rfl (take_answer rfl _ _) rfl rfl rfl rfl rfl rfl

theorem live_sweep {s : Swept} {since : ℕ} {g : Grant} (hg : g ∈ w.live) (hlt : g.stamp < since) :
    g ∈ (w.sweep s since).live := by
  unfold World.sweep
  dsimp only
  split
  · exact List.mem_filter.mpr ⟨hg,decide_eq_true hlt⟩
  · exact hg

theorem grounded_rewind (hinv : Inv w) (h : Grounded w) (boom : ℕ → ℕ → Bool) {m : Mark}
    (hm : m ∈ w.marks) (hmv : m.stamp ∈ w.valid) :
    Grounded (w.sweep (w.arena.rewind boom m.cp) m.stamp) := by
  obtain ⟨hcalls,hregistry,-⟩ := rewind_cases boom hinv.wf (hinv.recallable m hm)
  cases turn_sweep hinv hcalls hregistry m.stamp with
  | cut hdrops howners hentries hclock =>
    apply grounded_cut hinv h hdrops howners hentries rfl rfl _ hclock
    · exact fun g hg i hi hcheck => live_sweep hg (hcheck m hm hmv hi)
    · intro k hk hkv
      obtain ⟨hv,hle⟩ := mem_valid_sweep hkv
      have horder := h.order k hk m hm hv hmv hle
      exact le_min horder (horder.trans (h.below m hm hmv))
    · exact fun k hk => (mem_valid_sweep hk).1

theorem grounded_reset (hinv : Inv w) (hstacked : Stacked w) (h : Grounded w)
    (boom : ℕ → ℕ → Bool) : Grounded (w.sweep (w.arena.reset boom) 0) := by
  obtain ⟨hcalls,hregistry,-⟩ := reset_cases boom hinv.wf
  cases turn_sweep hinv hcalls hregistry 0 with
  | cut hdrops howners hentries hclock =>
    apply grounded_cut hinv h hdrops howners hentries rfl rfl _ hclock
    · exact fun g hg i hi => absurd hi (Nat.not_lt_zero i)
    · intro k hk hkv
      obtain ⟨hv,hle⟩ := mem_valid_sweep hkv
      exact absurd (hstacked.valid_pos _ hv) (Nat.not_lt.mpr hle)
    · exact fun k hk => (mem_valid_sweep hk).1

theorem grounded_depth (h : Grounded w) (n : ℕ) : Grounded (atDepth w n) :=
  ⟨h.backed,h.below,h.order,h.timed,h.intact,h.past,once_same h.once rfl rfl rfl⟩

theorem grounded_step (hinv : Inv w) (hstacked : Stacked w) (h : Grounded w) {op : Op}
    (hop : Permitted w op) : Grounded (w.step op) := by
  obtain ⟨hhonest,hvalid⟩ := hop
  have hstep := stepped hinv hhonest
  generalize w.step op = w' at hstep
  cases hstep with
  | served _ _ hserved => exact grounded_served hinv h hserved
  | declined _ => exact grounded_still hinv h rfl (take_answer rfl _ _) rfl rfl rfl rfl rfl rfl
  | ticked _ => exact grounded_still hinv h rfl rfl rfl rfl rfl rfl rfl rfl
  | noted _ => exact grounded_note hinv h rfl rfl rfl rfl rfl rfl rfl rfl
  | @rewound boom n m opened hm htarget _ _ =>
    have hcut := grounded_rewind (inv_depth hinv n) (grounded_depth h n) boom hm (htarget _ hvalid)
    exact ⟨hcut.backed,hcut.below,hcut.order,hcut.timed,hcut.intact,hcut.past,
      once_same hcut.once rfl rfl rfl⟩
  | reset _ => exact grounded_reset hinv hstacked h _

end grounded

section registered
variable {w : World} {ty : Ty} {ptr : ℕ}

theorem registered_entries (ty : Ty) (ptr : ℕ) (A : Arena) :
    ∃ es : List DropSlot, (registerDrop ty ptr A).dropRegistry.entries =
      A.dropRegistry.entries ++ es ∧ es.length ≤ 1 ∧ ∀ s ∈ es, s.extent = ⟨ptr,ty.size⟩ := by
  unfold registerDrop
  dsimp only
  rw [DropRegistry.entries_register]
  split
  · refine ⟨[.single ptr ty],rfl,le_refl 1,fun s hs => ?_⟩
    rw [List.mem_singleton.mp hs]
    exact congrArg (Span.mk ptr) (Nat.one_mul ty.size)
  · exact ⟨[],(List.append_nil _).symm,Nat.zero_le 1,nofun⟩

theorem inv_registered (hinv : Inv w) :
    Inv (w.take (answer (registerDrop ty ptr w.arena) .none 0)) := by
  obtain ⟨es,hentries,-,-⟩ := registered_entries ty ptr w.arena
  have hwf : Wf (registerDrop ty ptr w.arena) := wf_withRegistry hinv.wf _
  refine inv_of hinv hwf (grown_refl _) ?_ ?_ ?_ ?_ ?_ ?_ ?_
  · exact BumpLedger.sound_advance hinv.sound (le_refl _)
  · exact fun _ hm => Or.inl hm
  · exact fun f hf => Or.inl ⟨f,hf,rfl,rfl,rfl⟩
  · exact fun _ hm => hm
  · exact fun _ hg => Or.inl hg
  · apply owners_take hinv
    change _ ≤ (registerDrop ty ptr w.arena).dropRegistry.len
    rw [DropRegistry.len_entries, DropRegistry.len_entries, hentries, List.length_append]
    exact Nat.le_add_right _ _
  · exact hinv.live_issued

theorem grounded_registered (hinv : Inv w) (h : Grounded w)
    (hlive : ∃ g ∈ w.live, (⟨ptr,ty.size⟩ : Span).Within g.region.span) :
    Grounded (w.take (answer (registerDrop ty ptr w.arena) .none 0)) := by
  obtain ⟨es,hentries,hone,hextent⟩ := registered_entries ty ptr w.arena
  obtain ⟨g,hg,hwithin⟩ := hlive
  refine grounded_grown hinv h hone hentries ?_ (fun _ hg => hg) (fun _ hg => hg)
    (fun _ hg => Or.inl hg) ?_ rfl rfl rfl rfl
  · unfold World.take answer
    dsimp only
    rw [DropRegistry.len_entries, DropRegistry.len_entries, hentries, List.length_append,
      Nat.add_sub_cancel_left]
  · intro s hs
    refine ⟨g,hg,?_,(live_past hinv hg).le⟩
    rw [hextent s hs]
    exact hwithin

end registered

structure Kept (w : World) : Prop where
  inv : Inv w
  stacked : Stacked w
  grounded : Grounded w

theorem kept_step {w : World} (h : Kept w) {move : Move} (hmove : Sanctioned w move) :
    Kept (step w move) := by
  cases move with
  | call op =>
    exact ⟨inv_step h.inv hmove.1,stacked_step h.inv h.stacked hmove.1 hmove.2,
      grounded_step h.inv h.stacked h.grounded hmove⟩
  | registerDrop ty ptr =>
    exact ⟨inv_registered h.inv,stacked_advance h.stacked rfl rfl rfl (le_refl _),
      grounded_registered h.inv h.grounded hmove⟩

theorem kept_met {w : World} (h : Met w) : Kept w := by
  obtain ⟨sys,feature,initialBytes,A,moves,hs,hA,halong,rfl⟩ := h
  obtain ⟨hwf,-,-,-,-,hregistry⟩ := wf_withCapacity hs hA
  have hentries : A.dropRegistry.entries = [] := by rw [hregistry, DropRegistry.entries_new]
  apply run_invariant step Sanctioned Kept (fun _ _ h hmove => kept_step h hmove) _ moves _ halong
  refine ⟨inv_start hwf hentries,stacked_start A,?_,nofun,nofun,nofun,nofun,nofun,⟨nofun,nofun⟩,
    List.nodup_nil,List.nodup_nil,nofun⟩
  intro i s t hs ht
  change A.dropRegistry.entries[i]? = some s at hs
  rw [hentries] at hs
  cases hs

/-- Whatever is registered by hand, and whenever: the registry holds entries for live memory only,
every destructor that was run found memory that had not been handed out again, and none was run
twice for one registration. -/
theorem registered_drops_safe {w : World} (h : Met w) :
    (∀ s ∈ w.arena.dropRegistry.entries, ∃ g ∈ w.live, s.extent.Within g.region.span) ∧
      FoundIntact w ∧ (w.drops.map (fun d => (d.owner,d.elem))).Nodup := by
  obtain ⟨hinv,-,hgrounded⟩ := kept_met h
  refine ⟨?_,hgrounded.intact,hgrounded.once.drops⟩
  intro s hs
  obtain ⟨i,hi,hget⟩ := List.getElem_of_mem hs
  have howner : i < w.owners.length := by rw [len_owners hinv]; exact hi
  obtain ⟨g,hg,hwithin,-⟩ := hgrounded.backed i s _
    (List.getElem?_eq_some_iff.mpr ⟨hi,hget⟩) (List.getElem?_eq_getElem howner)
  exact ⟨g,hg,hwithin⟩

def lateMoves : List Move :=
  [.call (.request noMemory ⟨.uninit eightBytes,false⟩),.call .checkpoint,
    .registerDrop eightBytes 4096,.call (.rewind quiet 2)]

theorem registered_drops_safe_lateMoves : ∃ A, smallArena true 64 = some A ∧
    ∃ w, w = run step (World.start A) lateMoves ∧
      w.drops.map (fun d => (d.owner,d.slot.extent)) = [(3,⟨4096,8⟩)] ∧
      w.live.map (·.region.span) = [⟨4096,8⟩] ∧ FoundIntact w := by
  obtain ⟨A,hA⟩ : ∃ A, smallArena true 64 = some A := ⟨_,rfl⟩
  have hmet : Met (run step (World.start A) lateMoves) := by
    refine ⟨_,true,64,A,_,grants_small (by norm_num),hA,?_,rfl⟩
    refine ⟨⟨⟨grants_noMemory _,rfl⟩,trivial⟩,⟨trivial,trivial⟩,?_,⟨trivial,?_⟩,trivial⟩
    · unfold Sanctioned
      cases hA
      decide +kernel
    · unfold StillValid Targets
      cases hA
      decide +kernel
  refine ⟨A,hA,_,rfl,?_,?_,(registered_drops_safe hmet).2.1⟩
  · cases hA
    decide +kernel
  · cases hA
    decide +kernel

/-- The destructor of element `e` of what was registered at time `t`, entry `i` of the registry, has
been called once a drain down to `target` is over: it is called in the drain, or never was. -/
theorem called_cut {w : World} (hinv : Inv w) (h : Once w) {boom : ℕ → ℕ → Bool} {target : ℕ}
    {i t : ℕ} {s : DropSlot} (hs : w.arena.dropRegistry.entries[i]? = some s)
    (ht : w.owners[i]? = some t) (e : ℕ) :
    (∃ d ∈ w.drops ++ (callsUntil boom target w.arena.dropRegistry.entries).map
        (fun c => ⟨w.clock,w.owners.getD c.entry 0,c.elem,c.slot⟩), d.owner = t ∧ d.elem = e) ↔
      target ≤ i ∧ e < s.count ∧ ∀ e', e' < e → boom i e' = false := by
  constructor
  · rintro ⟨d,hd,howner,rfl⟩
    rcases List.mem_append.mp hd with hold | hnew
    · exact absurd (howner ▸ List.mem_of_getElem? ht) (h.spent d hold)
    · obtain ⟨c,hc,rfl⟩ := List.mem_map.mp hnew
      have hbound := (List.getElem?_eq_some_iff.mp ht).1
      have hentry : i = c.entry := by
        apply (List.getElem?_inj hbound h.owners).mp
        rw [ht, call_owner hinv hc]
        exact congrArg some howner.symm
      obtain ⟨⟨htarget,hslot,hcount⟩,hcalm⟩ := (FullDrain.mem_callsUntil_iff _ _ _ _).mp hc
      rw [← hentry] at htarget hslot hcalm
      obtain rfl : s = c.slot := Option.some.inj (hs.symm.trans hslot)
      exact ⟨htarget,hcount,hcalm⟩
  · rintro ⟨htarget,hcount,hcalm⟩
    have hcall : (⟨i,e,s⟩ : DropCall) ∈ callsUntil boom target w.arena.dropRegistry.entries :=
      (FullDrain.mem_callsUntil_iff _ _ _ _).mpr ⟨⟨htarget,hs,hcount⟩,hcalm⟩
    refine ⟨_,List.mem_append_right _ (List.mem_map_of_mem hcall),?_,rfl⟩
    dsimp only
    rw [List.getD_eq_getElem?_getD, ht]
    rfl

/-- What is registered later than a checkpoint is destroyed by going back to it, and memory handed
out earlier is kept: a value registered by hand on the one side, with its memory on the other, is
destroyed where it stays reachable. -/
theorem destroyed_early_iff {w : World} (h : Met w) (boom : ℕ → ℕ → Bool) {m : Mark}
    (hm : w.markAt m.stamp = some m) (hv : m.stamp ∈ w.valid) {i t : ℕ} {s : DropSlot}
    (hs : w.arena.dropRegistry.entries[i]? = some s) (ht : w.owners[i]? = some t) :
    ∃ g ∈ w.live, s.extent.Within g.region.span ∧ g.stamp ≤ t ∧
      (g ∈ (step w (.call (.rewind boom m.stamp))).live ↔
        g.stamp < m.stamp ∨ (w.arena.rewind boom m.cp).panic ≠ none) ∧
      ∀ e, (∃ d ∈ (step w (.call (.rewind boom m.stamp))).drops, d.owner = t ∧ d.elem = e) ↔
        m.stamp < t ∧ e < s.count ∧ ∀ e', e' < e → boom i e' = false := by
  obtain ⟨hinv,-,hgrounded⟩ := kept_met h
  have hmark := List.mem_of_find?_eq_some hm
  have hcalls := (rewind_cases boom hinv.wf (hinv.recallable m hmark)).1
  have hstep : step w (.call (.rewind boom m.stamp)) =
      w.sweep (w.arena.rewind boom m.cp) m.stamp := by
    simp only [step, World.step, hm]
  obtain ⟨g,hg,hwithin,hstamp,-⟩ := hgrounded.backed i s t hs ht
  refine ⟨g,hg,hwithin,hstamp,?_,fun e => ?_⟩
  · rw [hstep]
    unfold World.sweep
    dsimp only
    split
    next hquiet => simp [hg, hquiet]
    next hburst => simp [hg, hburst]
  · have hafter : m.cp.dropRegistryLen ≤ i ↔ m.stamp < t := by
      have htimed := hgrounded.timed m hmark hv i t ht
      omega
    rw [← hafter, ← called_cut hinv hgrounded.once hs ht e, hstep, ← hcalls]
    rfl

def earlyMoves : List Move := lateMoves.take 3

theorem destroyed_early_iff_earlyMoves : ∃ A, smallArena true 64 = some A ∧
    ∃ w, w = run step (World.start A) earlyMoves ∧ ∃ g ∈ w.live,
      g ∈ (step w (.call (.rewind quiet 2))).live ∧
      ∃ d ∈ (step w (.call (.rewind quiet 2))).drops, d.owner = 3 ∧ d.elem = 0 := by
  obtain ⟨A,hA⟩ : ∃ A, smallArena true 64 = some A := ⟨_,rfl⟩
  have hmet : Met (run step (World.start A) earlyMoves) := by
    refine ⟨_,true,64,A,_,grants_small (by norm_num),hA,?_,rfl⟩
    refine ⟨⟨⟨grants_noMemory _,rfl⟩,trivial⟩,⟨trivial,trivial⟩,?_,trivial⟩
    unfold Sanctioned
    cases hA
    decide +kernel
  refine ⟨A,hA,_,rfl,?_⟩
  obtain ⟨m,hm,hstamp⟩ : ∃ m, (run step (World.start A) earlyMoves).markAt 2 = some m ∧
      m.stamp = 2 := by
    cases hA
    exact ⟨_,rfl,rfl⟩
  have hv : m.stamp ∈ (run step (World.start A) earlyMoves).valid := by
    rw [hstamp]
    cases hA
    decide +kernel
  have hs : (run step (World.start A) earlyMoves).arena.dropRegistry.entries[0]? =
      some (.single 4096 eightBytes) := by
    cases hA
    rfl
  have ht : (run step (World.start A) earlyMoves).owners[0]? = some 3 := by
    cases hA
    rfl
  have hearly : ∀ g ∈ (run step (World.start A) earlyMoves).live, g.stamp < 2 := by
    cases hA
    decide +kernel
  obtain ⟨g,hg,-,-,hkept,hcalled⟩ :=
    destroyed_early_iff hmet quiet (by rw [hstamp]; exact hm) hv hs ht
  rw [hstamp] at hkept hcalled
  exact ⟨g,hg,hkept.mpr (Or.inl (hearly g hg)),
    (hcalled 0).mpr ⟨Nat.lt_succ_self 2,Nat.zero_lt_one,nofun⟩⟩

end FastArena.ManualDrops
