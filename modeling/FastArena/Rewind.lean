import FastArena.ArenaSteps

/-!
# Rewinding over a run

From a checkpoint on, and as long as no call goes back before it, the arena
stays at or above the checkpoint's position, leaves the blocks before it alone,
and keeps the registry's entries of that time. A rewind to the checkpoint then
brings the arena back to where it was.
-/

set_option autoImplicit false

namespace FastArena.Rewind
open FastArena.MachineWord FastArena.ByteSpan FastArena.ArenaBlock FastArena.InlineStorage
  FastArena.DropTracking FastArena.ArenaCore FastArena.ArenaInvariant FastArena.RawRequest
  FastArena.ArenaSweep FastArena.ArenaRequests FastArena.ArenaTransaction FastArena.LabelledRun
  FastArena.ArenaWorld FastArena.ArenaSteps

def Later (since : ℕ) (w : World) (op : Op) : Prop :=
  Targets (since ≤ ·) w op ∧ ∀ boom, op ≠ .reset boom

structure Since (A : Arena) (since : ℕ) (w : World) : Prop where
  above : BumpLedger.Above (position A) since (ledger w)
  grown : Grown A.blocks w.arena.blocks
  kept : ∀ i < A.current, w.arena.blocks.get i = A.blocks.get i
  registry : A.dropRegistry.entries <+: w.arena.dropRegistry.entries
  marks : ∀ m ∈ w.marks, since ≤ m.stamp → A.dropRegistry.len ≤ m.cp.dropRegistryLen

theorem lane_le {a b : Pos} (h : a ≤ b) : (ofLex a).1 ≤ (ofLex b).1 := by
  rcases Prod.Lex.le_iff.mp h with hlt | ⟨heq,-⟩
  · exact hlt.le
  · exact heq.le

section since
variable {A : Arena} {since : ℕ} {w w' : World}

theorem since_start (h : Inv w) : Since w.arena w.clock w where
  above := BumpLedger.above_start h.sound
  grown := grown_refl _
  kept := fun _ _ => rfl
  registry := List.prefix_rfl
  marks := fun m hm hle => absurd (h.sound.marks_past m.spot (List.mem_map_of_mem hm))
    (Nat.not_lt.mpr hle)

theorem current_le (h : Since A since w) : A.current ≤ w.arena.current := lane_le h.above.cursor

theorem since_of (h : Since A since w)
    (habove : BumpLedger.Above (position A) since (ledger w'))
    (hgrown : Grown w.arena.blocks w'.arena.blocks)
    (hkept : ∀ i < A.current, w'.arena.blocks.get i = w.arena.blocks.get i)
    (hregistry : A.dropRegistry.entries <+: w'.arena.dropRegistry.entries)
    (hmarks : ∀ m ∈ w'.marks, m ∈ w.marks ∨ A.dropRegistry.len ≤ m.cp.dropRegistryLen) :
    Since A since w' where
  above := habove
  grown := grown_trans h.grown hgrown
  kept := fun i hi => (hkept i hi).trans (h.kept i hi)
  registry := hregistry
  marks := by
    intro m hm hle
    rcases hmarks m hm with hold | hnew
    · exact h.marks m hold hle
    · exact hnew

theorem since_advance (h : Since A since w)
    (hledger : ledger w' = BumpLedger.advance (ledger w) (ledger w).pos)
    (hgrown : Grown w.arena.blocks w'.arena.blocks)
    (hkept : ∀ i < w.arena.current, w'.arena.blocks.get i = w.arena.blocks.get i)
    (hregistry : A.dropRegistry.entries <+: w'.arena.dropRegistry.entries)
    (hmarks : w'.marks = w.marks) : Since A since w' := by
  apply since_of h _ hgrown (fun i hi => hkept i (lt_of_lt_of_le hi (current_le h))) hregistry
  · rw [hmarks]
    exact fun m hm => Or.inl hm
  · rw [hledger]
    exact BumpLedger.above_advance h.above (le_refl _)

theorem since_served (h : Since A since w) {sys : SystemAlloc} {r : Request} {o : Outcome}
    (ho : Served sys w.arena r o) : Since A since (w.take o) := by
  cases ho with
  | carved _ _ _ hcarved hcarve hfills =>
    obtain ⟨registry,harena,-,hentries⟩ := hfills.arena_eq
    have hledger := ledger_take_carved hcarved hcarve harena
    have hpos := position_carved hcarved harena
    apply since_of h
    · rw [hledger]
      apply BumpLedger.above_grant h.above hcarved.above
      rw [hpos, Prod.Lex.toLex_le_toLex]
      exact Or.inr ⟨rfl,Nat.le_add_right _ _⟩
    · change Grown _ o.arena.blocks
      rw [harena]
      exact hcarved.grown
    · intro i hi
      change o.arena.blocks.get i = _
      rw [harena]
      exact hcarved.kept i (lt_of_lt_of_le hi (current_le h))
    · change _ <+: o.arena.dropRegistry.entries
      rw [harena, hentries, hcarved.registry]
      exact h.registry.trans (List.prefix_append _ _)
    · exact fun m hm => Or.inl hm
  | @failed _ _ ret A₁ _ _ _ _ hunmoved =>
    have hpos := position_eq hunmoved.current_eq hunmoved.base_eq hunmoved.ptr_eq
    have hledger : ledger (w.take (answer A₁ ret r.kind.lost)) =
        BumpLedger.advance (ledger w) (ledger w).pos := by
      rw [show (ledger w).pos = position A₁ from hpos.symm]
      rfl
    have hregistry : A.dropRegistry.entries <+: A₁.dropRegistry.entries := by
      rw [hunmoved.registry]
      exact h.registry
    exact since_advance h hledger hunmoved.grown hunmoved.kept hregistry rfl
  | answered _ => exact since_advance h rfl (grown_refl _) (fun _ _ => rfl) h.registry rfl

/-- A rewind to a checkpoint taken since goes no further back than that. -/
theorem since_rewind (hinv : Inv w) (h : Since A since w) (boom : ℕ → ℕ → Bool) {m : Mark}
    (hm : m ∈ w.marks) (hle : since ≤ m.stamp) :
    Since A since (w.sweep (w.arena.rewind boom m.cp) m.stamp) := by
  have hfloor : A.current ≤ m.cp.blockIdx :=
    lane_le (h.above.marks m.spot (List.mem_map_of_mem hm) hle)
  have habove : BumpLedger.Above (position A) since
      (ledger (w.sweep (w.arena.rewind boom m.cp) m.stamp)) := by
    rcases ledger_rewind hinv boom hm with heq | heq
    · rw [heq]
      exact BumpLedger.above_cut h.above (List.mem_map_of_mem hm) hle
    · rw [heq]
      exact BumpLedger.above_advance h.above (le_refl _)
  obtain ⟨-,hregistry,hcases⟩ := rewind_cases boom hinv.wf (hinv.recallable m hm)
  have hprefix : A.dropRegistry.entries <+: (w.arena.rewind boom m.cp).arena.dropRegistry.entries := by
    rw [hregistry, DropRegistry.entries_runDropsUntil, List.prefix_take_iff,
      ← DropRegistry.len_entries]
    exact ⟨h.registry,h.marks m hm hle⟩
  rcases hcases with ⟨-,-,harena⟩ | ⟨-,-,hrewound⟩
  · apply since_of h habove _ _ hprefix (fun m hm => Or.inl hm)
    · change Grown _ (w.arena.rewind boom m.cp).arena.blocks
      rw [harena]
      exact grown_refl _
    · intro i _
      change (w.arena.rewind boom m.cp).arena.blocks.get i = _
      rw [harena]
  · apply since_of h habove hrewound.grown _ hprefix (fun m hm => Or.inl hm)
    intro i hi
    have hidx := (hinv.recallable m hm).idx_lt
    exact hrewound.below i (by omega) (by omega)

theorem since_note (h : Since A since w) : Since A since (w.note w.arena.checkpoint) := by
  have habove : BumpLedger.Above (position A) since (ledger (w.note w.arena.checkpoint)) :=
    BumpLedger.above_mark h.above
  apply since_of h habove (grown_refl _) (fun _ _ => rfl) h.registry
  intro m hm
  rcases List.mem_cons.mp hm with rfl | hold
  · right
    have hlen := h.registry.length_le
    rw [← DropRegistry.len_entries, ← DropRegistry.len_entries] at hlen
    exact hlen
  · exact Or.inl hold

theorem since_depth (h : Since A since w) (n : ℕ) : Since A since (atDepth w n) :=
  ⟨h.above,h.grown,h.kept,h.registry,h.marks⟩

theorem since_step (hinv : Inv w) (h : Since A since w) {op : Op} (hop : Honest w op)
    (hlater : Later since w op) : Since A since (w.step op) := by
  obtain ⟨htargets,hreset⟩ := hlater
  have hstep := stepped hinv hop
  generalize w.step op = w' at hstep
  cases hstep with
  | served _ _ hserved => exact since_served h hserved
  | declined _ => exact since_advance h rfl (grown_refl _) (fun _ _ => rfl) h.registry rfl
  | ticked _ => exact since_advance h rfl (grown_refl _) (fun _ _ => rfl) h.registry rfl
  | noted _ =>
    have hs := since_note h
    exact ⟨hs.above,hs.grown,hs.kept,hs.registry,hs.marks⟩
  | @rewound boom n m opened hm htarget _ _ =>
    have hs := since_rewind (inv_depth hinv n) (since_depth h n) boom hm (htarget _ htargets)
    exact ⟨hs.above,hs.grown,hs.kept,hs.registry,hs.marks⟩
  | reset hboom => exact absurd hboom (hreset _)

theorem since_run (hinv : Inv w) (h : Since A since w) {ops : List Op}
    (hops : Along World.step (fun w op => Honest w op ∧ Later since w op) w ops) :
    Inv (run World.step w ops) ∧ Since A since (run World.step w ops) :=
  run_invariant World.step _ (fun w => Inv w ∧ Since A since w)
    (fun _ _ hw hop => ⟨inv_step hw.1 hop.1,since_step hw.1 hw.2 hop.1 hop.2⟩) w ops ⟨hinv,h⟩ hops

theorem totalCapacity_mono {blocks blocks' : Blocks} (h : Grown blocks blocks') :
    totalCapacity blocks ≤ totalCapacity blocks' := by
  calc
    totalCapacity blocks = ∑ i ∈ Finset.range blocks.len, (blocks'.get i).capacity := by
      apply Finset.sum_congr rfl
      intro i hi
      exact (extent_inj (h.extent_eq i (Finset.mem_range.mp hi))).2.symm
    _ ≤ totalCapacity blocks' := Finset.sum_le_sum_of_subset (Finset.range_mono h.len_le)

theorem grant_byte (hlaid : Laid w.arena.blocks) {g : Grant} (hg : Situated w.arena.blocks g)
    {i o : ℕ} (hi : i < w.arena.blocks.len) (ho : o < (w.arena.blocks.get i).capacity)
    (hx : g.region.span.Has ((w.arena.blocks.get i).base + o)) : i = g.lane ∧ g.offset ≤ o := by
  have hlane : i = g.lane := by
    by_contra hne
    have hblock : (w.arena.blocks.get i).extent.Has ((w.arena.blocks.get i).base + o) :=
      ⟨Nat.le_add_right _ _,Nat.add_lt_add_left ho _⟩
    exact hlaid.apart i hi g.lane hg.lane_lt hne _ hblock (within_has (situated_within hg) hx)
  refine ⟨hlane,?_⟩
  have hstart := hg.start_eq
  have hlo := hx.1
  rw [hlane] at hlo
  omega

/-- No grant made since reaches below the position of that time. -/
theorem since_untouched (hinv : Inv w) (h : Since A since w) {g : Grant} (hg : g ∈ w.issued)
    (hle : since ≤ g.stamp) {i o : ℕ} (hi : i < w.arena.blocks.len)
    (ho : o < (w.arena.blocks.get i).capacity)
    (hx : g.region.span.Has ((w.arena.blocks.get i).base + o)) : position A ≤ toLex (i,o) := by
  obtain ⟨rfl,hoffset⟩ := grant_byte hinv.wf.laid (hinv.situated g hg) hi ho hx
  apply (h.above.issued g.piece (List.mem_map_of_mem hg) hle).trans
  rw [Grant.piece, Prod.Lex.toLex_le_toLex]
  exact Or.inr ⟨rfl,hoffset⟩

/-- The arena is back where it was, keeping the blocks it has gained. -/
structure Restored (A A' : Arena) : Prop where
  current_eq : A'.current = A.current
  base_eq : A'.curBase = A.curBase
  ptr_eq : A'.curPtr = A.curPtr
  end_eq : A'.curEnd = A.curEnd
  flushed_eq : A'.bytesAllocated = A.bytesAllocated
  stats_eq : A'.stats.bytesAllocated = A.stats.bytesAllocated
  below : ∀ i < A.current, (A'.blocks.get i).offset = (A.blocks.get i).offset
  later : ∀ i < A'.blocks.len, A.current < i → (A'.blocks.get i).offset = 0
  count_le : A.stats.blockCount ≤ A'.stats.blockCount
  reserved_le : A.stats.bytesReserved ≤ A'.stats.bytesReserved

theorem restored_of {B A' : Arena} (hA : Wf A) (hgrown : Grown A.blocks B.blocks)
    (hkept : ∀ i < A.current, B.blocks.get i = A.blocks.get i)
    (h : Rewound B A.checkpoint A') : Restored A A' := by
  have hcur := current_lt hA
  obtain ⟨hbase,hcap⟩ := extent_inj (hgrown.extent_eq A.current hcur)
  have hcurrent : A'.current = A.current := h.current_eq
  have hbase' : A'.curBase = A.curBase := h.base_eq.trans (hbase.trans hA.base_eq.symm)
  have hptr : A'.curPtr = A.curPtr := by
    rw [h.ptr_eq, curPtr_eq hA, hA.base_eq, ← hbase]
    rfl
  have hflushed : A'.bytesAllocated = A.bytesAllocated :=
    h.bytes.trans (wsub_wadd_cancel hA.allocated_lt (wsub_lt _ _))
  exact {
    current_eq := hcurrent
    base_eq := hbase'
    ptr_eq := hptr
    end_eq := by
      rw [h.wf.end_eq, hA.end_eq, hbase', hcurrent,
        (extent_inj (h.grown.extent_eq A.current (lt_of_lt_of_le hcur hgrown.len_le))).2, hcap]
    flushed_eq := hflushed
    stats_eq := by
      change wadd A'.bytesAllocated (wsub A'.curPtr A'.curBase) = _
      rw [hflushed, hptr, hbase']
      rfl
    below := by
      intro i hi
      rw [h.below i hi (lt_of_lt_of_le (hi.trans hcur) hgrown.len_le), hkept i hi]
    later := by
      intro i hi hlt
      rw [h.len_eq] at hi
      exact h.above i hi hlt
    count_le := hgrown.len_le.trans h.grown.len_le
    reserved_le := by
      change A.bytesReserved ≤ A'.bytesReserved
      rw [hA.reserved, h.wf.reserved]
      exact totalCapacity_mono (grown_trans hgrown h.grown) }

end since

/-- After any run since a checkpoint that does not go back before it, rewinding to the checkpoint
restores the arena, and the run has written nothing below the position restored. -/
theorem rewind_restores {w₀ : World} (h : Reached Honest w₀) (ops : List Op)
    (hops : Along World.step (fun w op => Honest w op ∧ Later w₀.clock w op)
      (w₀.step .checkpoint) ops) (boom : ℕ → ℕ → Bool) {w : World}
    (hw : w = run World.step (w₀.step .checkpoint) ops) :
    ((w.arena.rewind boom w₀.arena.checkpoint).panic = none →
      Restored w₀.arena (w.arena.rewind boom w₀.arena.checkpoint).arena) ∧
    (w.arena.rewind quiet w₀.arena.checkpoint).panic = none ∧
    ∀ g ∈ w.issued, w₀.clock ≤ g.stamp → ∀ s ∈ g.wrote, ∀ i < w.arena.blocks.len,
      ∀ o < (w.arena.blocks.get i).capacity, s.Has ((w.arena.blocks.get i).base + o) →
        position w₀.arena ≤ toLex (i,o) := by
  have hinv₀ := inv_reached (fun _ _ hop => hop) h
  have hinv₁ : Inv (w₀.step .checkpoint) := inv_note hinv₀
  have hsince₁ : Since w₀.arena w₀.clock (w₀.step .checkpoint) := since_note (since_start hinv₀)
  obtain ⟨hinv,hsince⟩ := since_run hinv₁ hsince₁ hops
  rw [← hw] at hinv hsince
  have hrecall : Recallable w.arena.blocks w₀.arena.checkpoint :=
    recallable_grown (recallable_checkpoint hinv₀.wf) hsince.grown
  refine ⟨?_,?_,?_⟩
  · intro hpanic
    rcases (rewind_cases boom hinv.wf hrecall).2.2 with ⟨hno,-,-⟩ | ⟨-,-,hrewound⟩
    · exact nomatch hpanic.symm.trans hno
    · exact restored_of hinv₀.wf hsince.grown hsince.kept hrewound
  · rcases (rewind_cases quiet hinv.wf hrecall).2.2 with ⟨-,hno,-⟩ | ⟨hpanic,-,-⟩
    · rw [DropRegistry.panicked_runDropsUntil_quiet] at hno
      cases hno
    · exact hpanic
  · intro g hg hle s hs i hi o ho hx
    exact since_untouched hinv hsince hg hle hi ho
      (within_has ((hinv.situated g hg).wrote s hs) hx)

def busyCalls : List Op :=
  [.request noMemory ⟨.value eightBytes,false⟩,.checkpoint,
    .request (oneBlock 128 8192) ⟨.raw 128 1,true⟩,.request noMemory ⟨.raw 100 1,true⟩,
    .rewind quiet 3]

theorem rewind_restores_busyCalls : ∃ A, smallArena true 64 = some A ∧
    let w := run World.step ((World.start A).step .checkpoint) busyCalls
    Restored A (w.arena.rewind quiet A.checkpoint).arena ∧
      w.arena.stats.blockCount = 2 ∧ w.drops.length = 0 := by
  obtain ⟨A,hA⟩ : ∃ A, smallArena true 64 = some A := ⟨_,rfl⟩
  have hreached : Reached Honest (World.start A) := reached_small (by norm_num) hA [] trivial
  refine ⟨A,hA,?_,?_⟩
  · have hops : Along World.step (fun w op => Honest w op ∧ Later (World.start A).clock w op)
        ((World.start A).step .checkpoint) busyCalls := by
      have hraw : (128 : ℕ) < 2^64 := by norm_num
      have hrefused : (100 : ℕ) < 2^64 := by norm_num
      have hlater : 1 ≤ 3 := by norm_num
      refine ⟨⟨⟨grants_noMemory _,trivial⟩,trivial,nofun⟩,⟨trivial,trivial,nofun⟩,
        ⟨⟨?_,hraw⟩,trivial,nofun⟩,⟨⟨grants_noMemory _,hrefused⟩,trivial,nofun⟩,
        ⟨trivial,hlater,nofun⟩,trivial⟩
      apply grants_second (by norm_num [minBlockAlign]) (by norm_num [addressTop])
      all_goals
        cases hA
        decide +kernel
    obtain ⟨hrestored,hquiet,-⟩ := rewind_restores hreached _ hops quiet rfl
    exact hrestored hquiet
  · cases hA
    decide +kernel

end FastArena.Rewind
