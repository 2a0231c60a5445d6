import FastArena.ArenaWorld

/-!
# Safety of the regions handed out

A region is aligned, lies in one block, and shares no byte with any other live
region, after any run of calls. The order of the ledger carries this: an older
live region ends, in block and offset, before a newer one begins, and blocks
share no byte.
-/

set_option autoImplicit false

namespace FastArena.RegionSafety
open FastArena.MachineWord FastArena.ByteSpan FastArena.ArenaBlock FastArena.InlineStorage
  FastArena.DropTracking FastArena.ArenaCore FastArena.ArenaInvariant FastArena.RawRequest
  FastArena.ArenaSweep FastArena.ArenaRequests FastArena.ArenaTransaction FastArena.LabelledRun
  FastArena.ArenaWorld

theorem apart_of_pieces {blocks : Blocks} (hlaid : Laid blocks) {a b : Grant}
    (ha : Situated blocks a) (hb : Situated blocks b) (h : a.piece.hi ≤ b.piece.lo) :
    a.region.span.Apart b.region.span := by
  unfold Grant.piece at h
  rcases Prod.Lex.toLex_le_toLex.mp h with hlane | ⟨hlane,hoffset⟩
  · apply apart_of_within (situated_within ha) (situated_within hb)
    exact hlaid.apart _ ha.lane_lt _ hb.lane_lt (Nat.ne_of_lt hlane)
  · apply apart_of_le
    have hstart := ha.start_eq
    have hstart' := hb.start_eq
    dsimp only at hlane hoffset
    rw [← hlane] at hstart'
    omega

theorem live_apart {w : World} (h : Inv w) :
    w.live.Pairwise (fun a b => a.region.span.Apart b.region.span) := by
  have hordered := BumpLedger.sound_ordered h.sound
  apply List.Pairwise.imp_of_mem _ (List.pairwise_map.mp hordered)
  intro newer older hnewer holder hle
  have hsituated := fun g hg => h.situated g (h.live_issued.subset hg)
  exact apart_symm (apart_of_pieces h.wf.laid (hsituated older holder) (hsituated newer hnewer) hle)

/-- Memory of a live allocation is below the position and has not been handed out since. -/
theorem live_untouched {w : World} (hinv : Inv w) {g : Grant} (hg : g ∈ w.live) :
    g.piece.hi ≤ position w.arena ∧ ∀ g' ∈ w.issued, g.stamp < g'.stamp →
      g.region.span.Apart g'.region.span ∧ ∀ s ∈ g'.wrote, g.region.span.Apart s := by
  have hguarded := hinv.sound.guarded g.piece (List.mem_map_of_mem hg)
  refine ⟨hguarded.1,?_⟩
  intro g' hg' hstamp
  have hsituated := hinv.situated g' hg'
  have hapart := apart_of_pieces hinv.wf.laid (hinv.situated g (hinv.live_issued.subset hg))
    hsituated (hguarded.2 g'.piece (List.mem_map_of_mem hg') hstamp)
  refine ⟨hapart,?_⟩
  intro s hs
  exact apart_of_within (within_self _) (hsituated.wrote s hs) hapart

theorem served_call {w : World} (h : Inv w) {sys : SystemAlloc} {r : Request}
    (hop : Grants sys w.arena.blocks ∧ r.Typed) {o : Outcome}
    (ho : o = r.serve sys w.arena ∨ ∃ f ∈ w.opened, o = f.txn.serve sys w.arena r) {p : ℕ}
    (hret : o.ret = .ptr p) : Served sys w.arena r o := by
  rcases ho with rfl | ⟨f,-,rfl⟩
  · exact serve_served h.wf hop.1 hop.2
  · rcases txn_served h.wf hop.1 hop.2 f.txn with hserved | ⟨ret,hno,lost,heq⟩
    · exact hserved
    · rw [heq] at hret
      exact absurd hret (hno p)

theorem noted_region {w : World} (h : Inv w) {sys : SystemAlloc} {r : Request}
    (hop : Grants sys w.arena.blocks ∧ r.Typed) {o : Outcome}
    (ho : o = r.serve sys w.arena ∨ ∃ f ∈ w.opened, o = f.txn.serve sys w.arena r) {p size align : ℕ}
    (hret : o.ret = .ptr p) (hd : r.kind.demand = some (size,align)) :
    o.carved = some ⟨⟨p,size⟩,align⟩ := by
  have hserved := served_call h hop ho hret
  cases hserved with
  | carved hd' _ _ _ hcarve hfills =>
    obtain ⟨rfl,rfl⟩ := demand_unique hd hd'
    have hreply := hfills.ret_eq.symm.trans hret
    unfold Kind.reply at hreply
    split at hreply
    · cases hreply
      exact hcarve
    · cases hreply
  | failed _ _ _ hno _ => exact absurd hret (hno p)
  | answered hnone => exact nomatch hd.symm.trans hnone

/-- After every run of calls each live region is aligned as requested and lies in one block of
the arena, no two live regions share a byte, and what the next call returns is a region that
will be live. -/
theorem live_regions_safe {w : World} (h : Reached Honest w) :
    (∀ g ∈ w.live, g.region.align ∣ g.region.span.start ∧
      ∃ i < w.arena.blocks.len, g.region.span.Within (w.arena.blocks.get i).extent) ∧
    w.live.Pairwise (fun a b => a.region.span.Apart b.region.span) ∧
    ∀ sys r o p size align, Grants sys w.arena.blocks → r.Typed →
      (o = r.serve sys w.arena ∨ ∃ f ∈ w.opened, o = f.txn.serve sys w.arena r) →
      o.ret = .ptr p → r.kind.demand = some (size,align) →
      ∃ g ∈ (w.take o).live, g.region = ⟨⟨p,size⟩,align⟩ := by
  have hinv := inv_reached (fun _ _ hop => hop) h
  refine ⟨?_,live_apart hinv,?_⟩
  · intro g hg
    have hsituated := hinv.situated g (hinv.live_issued.subset hg)
    exact ⟨hsituated.aligned,_,hsituated.lane_lt,situated_within hsituated⟩
  · intro sys r o p size align hs hr ho hret hd
    have hcarve := noted_region hinv ⟨hs,hr⟩ ho hret hd
    refine ⟨_,List.mem_append_left _ (by rw [World.grantOf, hcarve]; exact List.mem_singleton_self _),
      rfl⟩

def someCalls : List Op :=
  [.request noMemory ⟨.value eightBytes,false⟩,.begin,.guarded noMemory ⟨.raw 8 16,true⟩,
    .rollback quiet,.request noMemory ⟨.str 5,false⟩]

theorem live_regions_safe_someCalls :
    ∃ A, smallArena true 64 = some A ∧
      (run World.step (World.start A) someCalls).live.map (·.region) =
        [⟨⟨4104,5⟩,1⟩,⟨⟨4096,8⟩,8⟩] ∧
      (run World.step (World.start A) someCalls).live.Pairwise
        (fun a b => a.region.span.Apart b.region.span) := by
  obtain ⟨A,hA⟩ : ∃ A, smallArena true 64 = some A := ⟨_,rfl⟩
  have hreached : Reached Honest (run World.step (World.start A) someCalls) := by
    apply reached_small (by norm_num) hA
    have hraw : (8 : ℕ) < 2^64 := by norm_num
    have hstr : (5 : ℕ) < 2^63 := by norm_num
    exact ⟨⟨grants_noMemory _,trivial⟩,trivial,⟨grants_noMemory _,hraw⟩,trivial,
      ⟨grants_noMemory _,hstr⟩,trivial⟩
  refine ⟨A,hA,?_,(live_regions_safe hreached).2.1⟩
  cases hA
  decide +kernel

end FastArena.RegionSafety
