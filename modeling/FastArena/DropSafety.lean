import FastArena.DropOrder

/-!
# Destructors on live memory

Any checkpoint may be gone back to, also one that a reset has made stale. The
registry is cut by a saved length and the memory by a saved place. As long as
every entry that is kept lies below that place, no destructor is ever run on
memory that was handed out again.
-/

set_option autoImplicit false

namespace FastArena.DropSafety
open FastArena.MachineWord FastArena.ByteSpan FastArena.ArenaBlock FastArena.InlineStorage
  FastArena.DropTracking FastArena.ArenaCore FastArena.ArenaInvariant FastArena.RawRequest
  FastArena.ArenaSweep FastArena.ArenaRequests FastArena.ArenaTransaction FastArena.LabelledRun
  FastArena.ArenaWorld FastArena.ArenaSteps FastArena.RegionSafety FastArena.DropOrder

/-- The memory of a registered value ends, within its block, at or before the checkpoint's place. -/
def Below (blocks : Blocks) (cp : Checkpoint) (s : DropSlot) : Prop :=
  ∃ i < blocks.len, s.extent.Within (blocks.get i).extent ∧
    toLex (i,s.ptr + s.extent.size - (blocks.get i).base) ≤ place cp

/-- Every entry the checkpoint keeps in the registry is of no size or lies below its place. -/
def Keeps (A : Arena) (cp : Checkpoint) : Prop :=
  ∀ s ∈ A.dropRegistry.entries.take cp.dropRegistryLen, s.extent.size = 0 ∨ Below A.blocks cp s

instance (blocks : Blocks) (cp : Checkpoint) (s : DropSlot) : Decidable (Below blocks cp s) :=
  inferInstanceAs (Decidable (∃ i < blocks.len, _ ∧ toLex _ ≤ toLex _))

instance (A : Arena) (cp : Checkpoint) : Decidable (Keeps A cp) :=
  inferInstanceAs (Decidable (∀ s ∈ _, _ ∨ _))

/-- The checkpoint a rewind or rollback goes to keeps only entries below its place, unless a panic
leaves the memory where it was. -/
def Sheltered (w : World) (op : Op) : Prop :=
  Targets (fun stamp => ∀ m ∈ w.marks, m.stamp = stamp →
    (w.arena.dropRegistry.runDropsUntil (oracle op) m.cp.dropRegistryLen).2.2 = false →
      Keeps w.arena m.cp) w op

def Safe (w : World) (op : Op) : Prop := Honest w op ∧ Sheltered w op

/-- Each destructor that was run found its value: nothing issued between registration and that
moment overlaps it. -/
def HeldSafe (w : World) : Prop :=
  ∀ d ∈ w.drops, (∃ g ∈ w.issued, g.stamp = d.owner ∧ g.owes = [d.slot]) ∧
    ∀ g ∈ w.issued, d.owner < g.stamp → g.stamp < d.time →
      d.slot.extent.Apart g.region.span ∧ ∀ s ∈ g.wrote, d.slot.extent.Apart s

def Kept (w : World) (pos : Pos) (e : DropSlot × ℕ) : Prop :=
  ∃ g ∈ w.issued, g.stamp = e.2 ∧ g.owes = [e.1] ∧ (e.1.extent.size ≠ 0 →
    BumpLedger.Guarded pos (w.issued.map Grant.piece) [g.piece])

structure Sheltering (w : World) : Prop where
  entries : ∀ e ∈ w.arena.dropRegistry.entries.zip w.owners, Kept w (position w.arena) e
  owing : ∀ g ∈ w.issued, Owing g
  logged : HeldSafe w
  past : ∀ d ∈ w.drops, d.time < w.clock

section sheltering
variable {w : World}

theorem sheltering_still (h : Sheltering w) {w' : World}
    (hregistry : w'.arena.dropRegistry = w.arena.dropRegistry) (howners : w'.owners = w.owners)
    (hissued : w'.issued = w.issued) (hdrops : w'.drops = w.drops)
    (hpos : position w'.arena = position w.arena) (hclock : w'.clock = w.clock+1) :
    Sheltering w' where
  entries := by
    unfold Kept
    rw [hregistry, howners, hissued, hpos]
    exact h.entries
  owing := by
    rw [hissued]
    exact h.owing
  logged := by
    unfold HeldSafe
    rw [hdrops, hissued]
    exact h.logged
  past := by
    intro d hd
    rw [hdrops] at hd
    rw [hclock]
    exact Nat.lt_succ_of_lt (h.past d hd)

theorem sheltering_served (hinv : Inv w) (h : Sheltering w) {sys : SystemAlloc} {r : Request}
    {o : Outcome} (ho : Served sys w.arena r o) : Sheltering (w.take o) := by
  cases ho with
  | carved _ _ _ hcarved hcarve hfills =>
    obtain ⟨g,hstamp,-,-,howing,-,hissued,hentries,howners,hlo,hhi,hpos⟩ :=
      take_carved hcarved hcarve hfills
    refine ⟨?_,?_,?_,?_⟩
    · intro e he
      rw [hentries, howners, List.zip_append (len_owners hinv).symm, zip_replicate_length,
        ← hstamp] at he
      unfold Kept
      rw [hissued, ← hpos, List.map_cons]
      rcases List.mem_append.mp he with hold | hnew
      · obtain ⟨g',hg',hstamp',howes',hguarded⟩ := h.entries e hold
        exact ⟨g',List.mem_cons_of_mem _ hg',hstamp',howes',fun hsize =>
          BumpLedger.guarded_issue g.piece (hguarded hsize) hlo hhi⟩
      · obtain ⟨s,hs,rfl⟩ := List.mem_map.mp hnew
        rcases howing with hnone | ⟨s',hs',-⟩
        · rw [hnone] at hs
          cases hs
        · obtain rfl : s = s' := by rwa [hs', List.mem_singleton] at hs
          refine ⟨g,List.mem_cons_self,rfl,hs',fun _ => ?_⟩
          have hnone : BumpLedger.Guarded (position w.arena) (w.issued.map Grant.piece) [] := nofun
          apply BumpLedger.guarded_grant g.piece hnone hlo hhi
          intro q hq
          exact lt_of_lt_of_eq (hinv.sound.issued_past q hq) hstamp.symm
    · intro g' hg'
      rw [hissued] at hg'
      rcases List.mem_cons.mp hg' with rfl | hold
      · exact howing
      · exact h.owing g' hold
    · intro d hd
      obtain ⟨⟨g',hg',howner⟩,hapart⟩ := h.logged d hd
      rw [hissued]
      refine ⟨⟨g',List.mem_cons_of_mem _ hg',howner⟩,?_⟩
      intro g'' hg'' hlt hbefore
      rcases List.mem_cons.mp hg'' with rfl | hold
      · have hpast := h.past d hd
        omega
      · exact hapart g'' hold hlt hbefore
    · exact fun d hd => Nat.lt_succ_of_lt (h.past d hd)
  | failed _ _ _ _ hunmoved =>
    exact sheltering_still h hunmoved.registry (take_answer hunmoved.registry _ _) rfl rfl
      (position_eq hunmoved.current_eq hunmoved.base_eq hunmoved.ptr_eq) rfl
  | answered _ => exact sheltering_still h rfl (take_answer rfl _ _) rfl rfl rfl rfl

theorem kept_apart (hinv : Inv w) (h : Sheltering w) {pos : Pos} {e : DropSlot × ℕ}
    (he : Kept w pos e) : (∃ g ∈ w.issued, g.stamp = e.2 ∧ g.owes = [e.1]) ∧
      ∀ g ∈ w.issued, e.2 < g.stamp → e.1.extent.Apart g.region.span ∧
        ∀ s ∈ g.wrote, e.1.extent.Apart s := by
  obtain ⟨g,hg,hstamp,howes,hguarded⟩ := he
  refine ⟨⟨g,hg,hstamp,howes⟩,?_⟩
  have hspan := owing_extent (h.owing g hg) howes
  intro g' hg' hlt
  have hsituated := hinv.situated g' hg'
  have hapart : e.1.extent.Apart g'.region.span := by
    by_cases hsize : e.1.extent.size = 0
    · exact apart_of_empty hsize
    · rw [hspan]
      exact apart_of_pieces hinv.wf.laid (hinv.situated g hg) hsituated
        ((hguarded hsize g.piece (List.mem_singleton_self _)).2 g'.piece
          (List.mem_map_of_mem hg') (lt_of_eq_of_lt hstamp hlt))
  exact ⟨hapart,fun s hs => apart_of_within (within_self _) (hsituated.wrote s hs) hapart⟩

theorem below_hi {blocks : Blocks} (hlaid : Laid blocks) {g : Grant} (hg : Situated blocks g)
    {cp : Checkpoint} {s : DropSlot} (hspan : s.extent = g.region.span) (hsize : s.extent.size ≠ 0)
    (h : Below blocks cp s) : g.piece.hi ≤ place cp := by
  obtain ⟨i,hi,hwithin,hle⟩ := h
  have hlane : i = g.lane := by
    by_contra hne
    exact within_unique (Nat.pos_of_ne_zero hsize) hwithin (hspan ▸ situated_within hg)
      (hlaid.apart i hi g.lane hg.lane_lt hne)
  have hstart : s.ptr = g.region.span.start := congrArg Span.start hspan
  rw [hlane, hstart, hg.start_eq, hspan, Nat.add_assoc, Nat.add_sub_cancel_left] at hle
  exact hle

theorem mem_zip_owner (hinv : Inv w) {i : ℕ} {s : DropSlot}
    (hs : w.arena.dropRegistry.entries[i]? = some s) :
    (s,w.owners.getD i 0) ∈ w.arena.dropRegistry.entries.zip w.owners := by
  obtain ⟨hi,rfl⟩ := List.getElem?_eq_some_iff.mp hs
  have hi' : i < w.owners.length := by
    rw [len_owners hinv]
    exact hi
  have hmem := List.getElem_mem (l := w.arena.dropRegistry.entries.zip w.owners) (n := i)
    (by rw [List.length_zip]; omega)
  rw [List.getElem_zip] at hmem
  rw [List.getD_eq_getElem?_getD, List.getElem?_eq_getElem hi', Option.getD_some]
  exact hmem

/-- A sweep that keeps only entries below where it leaves the arena. -/
theorem sheltering_sweep (hinv : Inv w) (h : Sheltering w) {boom : ℕ → ℕ → Bool} {s : Swept}
    {since target : ℕ} (hcalls : s.calls = callsUntil boom target w.arena.dropRegistry.entries)
    (hentries : s.arena.dropRegistry.entries = w.arena.dropRegistry.entries.take target)
    (hkept : ∀ e ∈ (w.arena.dropRegistry.entries.zip w.owners).take target,
      Kept w (position s.arena) e) : Sheltering (w.sweep s since) where
  entries := by
    intro e he
    apply hkept e
    rw [← zip_sweep hinv since hentries]
    exact he
  owing := h.owing
  logged := by
    intro d hd
    rcases List.mem_append.mp hd with hold | hnew
    · exact h.logged d hold
    · obtain ⟨c,hc,rfl⟩ := List.mem_map.mp hnew
      rw [hcalls] at hc
      obtain ⟨-,hslot,-⟩ := mem_callsUntil hc
      obtain ⟨howner,hapart⟩ := kept_apart hinv h (h.entries _ (mem_zip_owner hinv hslot))
      exact ⟨howner,fun g hg hlt _ => hapart g hg hlt⟩
  past := by
    intro d hd
    rcases List.mem_append.mp hd with hold | hnew
    · exact Nat.lt_succ_of_lt (h.past d hold)
    · obtain ⟨c,-,rfl⟩ := List.mem_map.mp hnew
      exact Nat.lt_succ_self _

theorem sheltering_rewind (hinv : Inv w) (h : Sheltering w) (boom : ℕ → ℕ → Bool) {m : Mark}
    (hm : m ∈ w.marks)
    (hkeeps : (w.arena.dropRegistry.runDropsUntil boom m.cp.dropRegistryLen).2.2 = false →
      Keeps w.arena m.cp) : Sheltering (w.sweep (w.arena.rewind boom m.cp) m.stamp) := by
  obtain ⟨hcalls,hregistry,hcases⟩ := rewind_cases boom hinv.wf (hinv.recallable m hm)
  have hentries := congrArg DropRegistry.entries hregistry
  rw [DropRegistry.entries_runDropsUntil] at hentries
  apply sheltering_sweep hinv h hcalls hentries
  intro e he
  have hentry := h.entries e (List.mem_of_mem_take he)
  rcases hcases with ⟨-,-,harena⟩ | ⟨-,hcalm,hrewound⟩
  · have hpos : position (w.arena.rewind boom m.cp).arena = position w.arena := by
      rw [harena]
      rfl
    rw [hpos]
    exact hentry
  · obtain ⟨g,hg,hstamp,howes,hguarded⟩ := hentry
    refine ⟨g,hg,hstamp,howes,fun hsize => ?_⟩
    apply BumpLedger.guarded_cut (hguarded hsize)
    intro p hp
    refine ⟨hp,?_⟩
    obtain rfl := List.mem_singleton.mp hp
    have hkept : e.1 ∈ w.arena.dropRegistry.entries.take m.cp.dropRegistryLen := by
      rw [List.zip, List.take_zipWith] at he
      exact (List.of_mem_zip he).1
    rw [rewound_position hrewound]
    exact below_hi hinv.wf.laid (hinv.situated g hg) (owing_extent (h.owing g hg) howes) hsize
      ((hkeeps hcalm e.1 hkept).resolve_left hsize)

theorem sheltering_reset (hinv : Inv w) (h : Sheltering w) (boom : ℕ → ℕ → Bool) :
    Sheltering (w.sweep (w.arena.reset boom) 0) := by
  obtain ⟨hcalls,hregistry,-⟩ := reset_cases boom hinv.wf
  have hentries := congrArg DropRegistry.entries hregistry
  rw [DropRegistry.runAllDrops, DropRegistry.entries_runDropsUntil] at hentries
  exact sheltering_sweep hinv h hcalls hentries (fun _ he => absurd he List.not_mem_nil)

theorem sheltering_depth (h : Sheltering w) (n : ℕ) : Sheltering (atDepth w n) :=
  ⟨h.entries,h.owing,h.logged,h.past⟩

theorem sheltering_step (hinv : Inv w) (h : Sheltering w) {op : Op} (hop : Safe w op) :
    Sheltering (w.step op) := by
  obtain ⟨hhonest,hsheltered⟩ := hop
  have hstep := stepped hinv hhonest
  generalize w.step op = w' at hstep
  cases hstep with
  | served _ _ hserved => exact sheltering_served hinv h hserved
  | declined _ => exact sheltering_still h rfl (take_answer rfl _ _) rfl rfl rfl rfl
  | ticked _ => exact sheltering_still h rfl rfl rfl rfl rfl rfl
  | noted _ => exact sheltering_still h rfl rfl rfl rfl rfl rfl
  | @rewound boom n m opened hm htarget hboom _ =>
    have horacle : oracle op = boom := by
      rcases hboom with rfl | rfl
      · rfl
      · rfl
    have hkeeps := htarget _ hsheltered m hm rfl
    rw [horacle] at hkeeps
    have hs := sheltering_rewind (inv_depth hinv n) (sheltering_depth h n) boom hm hkeeps
    exact ⟨hs.entries,hs.owing,hs.logged,hs.past⟩
  | reset _ => exact sheltering_reset hinv h _

end sheltering

/-- On runs whose rewinds and rollbacks, where no panic cuts them short, keep only entries below the
place they go back to, stale checkpoints included, every destructor finds the value it was
registered for. -/
theorem destructors_safe {w : World} (h : Reached Safe w) : HeldSafe w := by
  obtain ⟨sys,feature,initialBytes,A,ops,hs,hA,halong,rfl⟩ := h
  obtain ⟨hwf,-,-,-,-,hregistry⟩ := wf_withCapacity hs hA
  have hentries : A.dropRegistry.entries = [] := by rw [hregistry, DropRegistry.entries_new]
  have hstart : Sheltering (World.start A) := by
    refine ⟨?_,nofun,nofun,nofun⟩
    intro e he
    change e ∈ A.dropRegistry.entries.zip [] at he
    rw [List.zip_nil_right] at he
    cases he
  have hrun := run_invariant World.step Safe (fun w => Inv w ∧ Sheltering w)
    (fun _ _ hw hop => ⟨inv_step hw.1 hop.1,sheltering_step hw.1 hw.2 hop⟩) _ ops
    ⟨inv_start hwf hentries,hstart⟩ halong
  exact hrun.2.logged

def freshCalls : List Op :=
  [.request noMemory ⟨.value eightBytes,false⟩,.checkpoint,
    .request noMemory ⟨.value eightBytes,false⟩,.rewind quiet 2,
    .request noMemory ⟨.raw 64 1,false⟩,.reset quiet]

theorem destructors_safe_freshCalls : ∃ A, smallArena true 256 = some A ∧
    HeldSafe (run World.step (World.start A) freshCalls) ∧
      (run World.step (World.start A) freshCalls).drops.map (·.owner) = [3,1] := by
  obtain ⟨A,hA⟩ : ∃ A, smallArena true 256 = some A := ⟨_,rfl⟩
  have hreached : Reached Safe (run World.step (World.start A) freshCalls) := by
    apply reached_small (by norm_num) hA
    have hraw : (64 : ℕ) < 2^64 := by norm_num
    refine ⟨⟨⟨grants_noMemory _,trivial⟩,trivial⟩,⟨trivial,trivial⟩,
      ⟨⟨grants_noMemory _,trivial⟩,trivial⟩,⟨trivial,?_⟩,⟨⟨grants_noMemory _,hraw⟩,trivial⟩,
      ⟨trivial,trivial⟩,trivial⟩
    unfold Sheltered Targets
    cases hA
    decide +kernel
  refine ⟨A,hA,destructors_safe hreached,?_⟩
  cases hA
  decide +kernel

/-- A value and a checkpoint; a reset; past a raw region, another value. The checkpoint is stale
now: going back to it keeps the entry of the second value but not its memory, which a raw region
takes before the last reset. -/
def staleCalls : List Op :=
  [.request noMemory ⟨.value eightBytes,false⟩,.checkpoint,.reset quiet,
    .request noMemory ⟨.raw 64 1,false⟩,.request noMemory ⟨.value eightBytes,false⟩,
    .rewind quiet 2,.request noMemory ⟨.raw 128 1,false⟩,.reset quiet]

/-- The second value's destructor runs on memory handed out again. -/
theorem destructor_on_reused_memory : ∃ w, Reached Honest w ∧
    w.drops.map (fun d => (d.time,d.owner,d.slot.extent)) = [(3,1,⟨4096,8⟩),(8,5,⟨4160,8⟩)] ∧
    w.issued.map (fun g => (g.stamp,g.region.span)) =
      [(7,⟨4104,128⟩),(5,⟨4160,8⟩),(4,⟨4096,64⟩),(1,⟨4096,8⟩)] ∧ ¬ HeldSafe w := by
  obtain ⟨A,hA⟩ : ∃ A, smallArena true 256 = some A := ⟨_,rfl⟩
  have hreached : Reached Honest (run World.step (World.start A) staleCalls) := by
    apply reached_small (by norm_num) hA
    have hraw : (64 : ℕ) < 2^64 := by norm_num
    have hraw' : (128 : ℕ) < 2^64 := by norm_num
    exact ⟨⟨grants_noMemory _,trivial⟩,trivial,trivial,⟨grants_noMemory _,hraw⟩,
      ⟨grants_noMemory _,trivial⟩,trivial,⟨grants_noMemory _,hraw'⟩,trivial,trivial⟩
  refine ⟨_,hreached,?_⟩
  generalize hw : run World.step (World.start A) staleCalls = w
  have hdrops : w.drops.map (fun d => (d.time,d.owner,d.slot.extent)) =
      [(3,1,⟨4096,8⟩),(8,5,⟨4160,8⟩)] := by
    subst hw
    cases hA
    decide +kernel
  have hissued : w.issued.map (fun g => (g.stamp,g.region.span)) =
      [(7,⟨4104,128⟩),(5,⟨4160,8⟩),(4,⟨4096,64⟩),(1,⟨4096,8⟩)] := by
    subst hw
    cases hA
    decide +kernel
  refine ⟨hdrops,hissued,?_⟩
  intro hsafe
  have hlast : (8,5,⟨4160,8⟩) ∈ w.drops.map (fun d => (d.time,d.owner,d.slot.extent)) := by
    rw [hdrops]
    exact List.mem_cons_of_mem _ (List.mem_singleton_self _)
  have hfirst : (7,⟨4104,128⟩) ∈ w.issued.map (fun g => (g.stamp,g.region.span)) := by
    rw [hissued]
    exact List.mem_cons_self
  obtain ⟨d,hd,hdrop⟩ := List.mem_map.mp hlast
  obtain ⟨g,hg,hgrant⟩ := List.mem_map.mp hfirst
  simp only [Prod.mk.injEq] at hdrop hgrant
  obtain ⟨htime,howner,hextent⟩ := hdrop
  obtain ⟨hstamp,hspan⟩ := hgrant
  have hapart := ((hsafe d hd).2 g hg (by omega) (by omega)).1
  rw [hextent, hspan] at hapart
  exact hapart 4160 ⟨by norm_num,by norm_num⟩ ⟨by norm_num,by norm_num⟩

end FastArena.DropSafety
