import FastArena.ArenaTransaction
import FastArena.BumpLedger
import FastArena.LabelledRun

/-!
# Runs of an arena

The arena with the calls made on it, one after another, and beside it what a
spectator writes down: the regions handed out and which of them are live, the
checkpoints taken and which are still valid, the open transactions, whom the
registry's entries belong to, and the destructor calls made. The notes never
feed back into the arena. The system allocator may refuse any block, but grants the
block list and the registry the buffers they move to; the runs in which it does not
are those of `ListBuffer` and `RegistryBuffer`.
-/

set_option autoImplicit false

namespace FastArena.ArenaWorld
open FastArena.MachineWord FastArena.ByteSpan FastArena.ArenaBlock FastArena.InlineStorage
  FastArena.DropTracking FastArena.ArenaCore FastArena.ArenaInvariant FastArena.RawRequest
  FastArena.ArenaSweep FastArena.ArenaRequests FastArena.ArenaTransaction FastArena.LabelledRun

/-- A region carved at some time: its block, its offset there, what the call wrote, and what it
registered for destruction. The call may have panicked after carving it, when an iterator ended
early. -/
structure Grant where
  stamp : ℕ
  lane : ℕ
  offset : ℕ
  region : Region
  wrote : List Span
  owes : List DropSlot

structure Mark where
  stamp : ℕ
  cp : Checkpoint

structure Open where
  txn : Transaction
  stamp : ℕ
  start : Arena

structure Drop where
  time : ℕ
  owner : ℕ
  elem : ℕ
  slot : DropSlot

structure World where
  arena : Arena
  clock : ℕ
  live : List Grant
  issued : List Grant
  marks : List Mark
  valid : List ℕ
  opened : List Open
  owners : List ℕ
  drops : List Drop

inductive Op where
  | request (sys : SystemAlloc) (r : Request)
  | guarded (sys : SystemAlloc) (r : Request)
  | checkpoint
  | rewind (boom : ℕ → ℕ → Bool) (stamp : ℕ)
  | reset (boom : ℕ → ℕ → Bool)
  | begin
  | commit
  | rollback (boom : ℕ → ℕ → Bool)
  | setLimit (bytes : ℕ)

namespace World

def start (A : Arena) : World := ⟨A,1,[],[],[],[],[],[],[]⟩

def tick (w : World) : World := { w with clock := w.clock+1 }

def grantOf (w : World) (o : Outcome) : List Grant :=
  match o.carved with
  | none => []
  | some region => [⟨w.clock,o.arena.current,region.span.start - o.arena.curBase,region,o.wrote,
      o.arena.dropRegistry.entries.drop w.arena.dropRegistry.len⟩]

def take (w : World) (o : Outcome) : World :=
  { w with
    arena := o.arena
    clock := w.clock+1
    live := w.grantOf o ++ w.live
    issued := w.grantOf o ++ w.issued
    owners := w.owners ++
      List.replicate (o.arena.dropRegistry.len - w.arena.dropRegistry.len) w.clock }

def sweep (w : World) (s : Swept) (since : ℕ) : World :=
  { w with
    arena := s.arena
    clock := w.clock+1
    live := if s.panic = none then w.live.filter (·.stamp < since) else w.live
    valid := w.valid.filter (· ≤ since)
    owners := w.owners.take s.arena.dropRegistry.len
    drops := w.drops ++ s.calls.map (fun c => ⟨w.clock,w.owners.getD c.entry 0,c.elem,c.slot⟩) }

def note (w : World) (cp : Checkpoint) : World :=
  { w with
    clock := w.clock+1
    marks := ⟨w.clock,cp⟩ :: w.marks
    valid := w.clock :: w.valid }

def markAt (w : World) (stamp : ℕ) : Option Mark := w.marks.find? (fun m => m.stamp = stamp)

-- One call on the arena or on the innermost open transaction. A call on something that is not
-- there is no call: only time passes.
def step (w : World) : Op → World
  | .request sys r => w.take (r.serve sys w.arena)
  | .guarded sys r =>
    match w.opened with
    | [] => w.tick
    | f::_ => w.take (f.txn.serve sys w.arena r)
  | .checkpoint => w.note w.arena.checkpoint
  | .rewind boom stamp =>
    match w.markAt stamp with
    | none => w.tick
    | some m => w.sweep (w.arena.rewind boom m.cp) m.stamp
  | .reset boom => w.sweep (w.arena.reset boom) 0
  | .begin =>
    let opening := Transaction.new w.arena
    { w.note opening.1.checkpoint with
      arena := opening.2
      opened := ⟨opening.1,w.clock,w.arena⟩ :: w.opened }
  | .commit =>
    match w.opened with
    | [] => w.tick
    | _::rest => { w.tick with arena := Transaction.commit w.arena, opened := rest }
  | .rollback boom =>
    match w.opened with
    | [] => w.tick
    | f::rest => { w.sweep (f.txn.drop boom w.arena) f.stamp with opened := rest }
  | .setLimit bytes =>
    match w.opened with
    | [] => w.tick
    | f::rest => { w.tick with opened := { f with txn := f.txn.setLimit bytes } :: rest }

end World

/-- Every call takes a moment. -/
theorem clock_step (w : World) (op : Op) : (w.step op).clock = w.clock+1 := by
  cases op with
  | guarded sys r => cases hopened : w.opened <;> simp only [World.step, hopened] <;> rfl
  | rewind boom stamp =>
    cases hfound : w.markAt stamp <;> simp only [World.step, hfound] <;> rfl
  | commit => cases hopened : w.opened <;> simp only [World.step, hopened] <;> rfl
  | rollback boom => cases hopened : w.opened <;> simp only [World.step, hopened] <;> rfl
  | setLimit bytes => cases hopened : w.opened <;> simp only [World.step, hopened] <;> rfl
  | request sys r => rfl
  | checkpoint => rfl
  | reset boom => rfl
  | begin => rfl

/-- The system allocator keeps its promises and the arguments have their Rust types. -/
def Honest (w : World) : Op → Prop
  | .request sys r => Grants sys w.arena.blocks ∧ r.Typed
  | .guarded sys r => Grants sys w.arena.blocks ∧ r.Typed
  | _ => True

/-- Worlds met on a run from a new arena, each step of which meets the guard. -/
def Reached (ok : World → Op → Prop) (w : World) : Prop :=
  ∃ sys feature initialBytes A ops, Grants sys (InlineVec.new : Blocks) ∧
    Arena.withCapacity sys feature initialBytes = some A ∧
    Along World.step ok (World.start A) ops ∧ w = run World.step (World.start A) ops

def Grant.piece (g : Grant) : BumpLedger.Piece Pos :=
  ⟨g.stamp,toLex (g.lane,g.offset),toLex (g.lane,g.offset + g.region.span.size)⟩

def Mark.spot (m : Mark) : BumpLedger.Mark Pos := ⟨m.stamp,place m.cp⟩

def ledger (w : World) : BumpLedger.Ledger Pos :=
  ⟨position w.arena,w.clock,w.live.map Grant.piece,w.issued.map Grant.piece,w.marks.map Mark.spot⟩

/-- A grant sits in its block where it says. -/
structure Situated (blocks : Blocks) (g : Grant) : Prop where
  lane_lt : g.lane < blocks.len
  start_eq : g.region.span.start = (blocks.get g.lane).base + g.offset
  room : g.offset + g.region.span.size ≤ (blocks.get g.lane).capacity
  aligned : g.region.align ∣ g.region.span.start
  wrote : ∀ s ∈ g.wrote, s.Within g.region.span

theorem situated_grown {blocks blocks' : Blocks} {g : Grant} (h : Situated blocks g)
    (hgrown : Grown blocks blocks') : Situated blocks' g := by
  obtain ⟨hbase,hcap⟩ := extent_inj (hgrown.extent_eq g.lane h.lane_lt)
  exact ⟨lt_of_lt_of_le h.lane_lt hgrown.len_le,h.start_eq.trans (by rw [hbase]),
    by rw [hcap]; exact h.room,h.aligned,h.wrote⟩

theorem situated_within {blocks : Blocks} {g : Grant} (h : Situated blocks g) :
    g.region.span.Within (blocks.get g.lane).extent := by
  have hstart := h.start_eq
  have hroom := h.room
  unfold Span.Within Block.extent
  dsimp only
  omega

structure Inv (w : World) : Prop where
  wf : Wf w.arena
  sound : BumpLedger.Sound (ledger w)
  recallable : ∀ m ∈ w.marks, Recallable w.arena.blocks m.cp
  opened : ∀ f ∈ w.opened, ⟨f.stamp,f.txn.checkpoint⟩ ∈ w.marks ∧ f.txn.committed = false
  situated : ∀ g ∈ w.issued, Situated w.arena.blocks g
  owners : w.owners.length = w.arena.dropRegistry.len
  live_issued : w.live.Sublist w.issued

section steps
variable {w : World}

/-- Regions and marks survive whatever leaves the earlier blocks in place. -/
theorem inv_of {w' : World} (h : Inv w) (hwf : Wf w'.arena)
    (hgrown : Grown w.arena.blocks w'.arena.blocks) (hsound : BumpLedger.Sound (ledger w'))
    (hmarks : ∀ m ∈ w'.marks, m ∈ w.marks ∨ Recallable w'.arena.blocks m.cp)
    (hopened : ∀ f ∈ w'.opened, (∃ g ∈ w.opened, g.stamp = f.stamp ∧
      g.txn.checkpoint = f.txn.checkpoint ∧ f.txn.committed = g.txn.committed) ∨
        ⟨f.stamp,f.txn.checkpoint⟩ ∈ w'.marks ∧ f.txn.committed = false)
    (hkept : ∀ m ∈ w.marks, m ∈ w'.marks)
    (hissued : ∀ g ∈ w'.issued, g ∈ w.issued ∨ Situated w'.arena.blocks g)
    (howners : w'.owners.length = w'.arena.dropRegistry.len)
    (hlive : w'.live.Sublist w'.issued) : Inv w' where
  wf := hwf
  sound := hsound
  recallable := by
    intro m hm
    rcases hmarks m hm with hold | hnew
    · exact recallable_grown (h.recallable m hold) hgrown
    · exact hnew
  opened := by
    intro f hf
    rcases hopened f hf with ⟨g,hg,hstamp,hcp,hcom⟩ | hnew
    · obtain ⟨hmark,hopen⟩ := h.opened g hg
      rw [hstamp, hcp] at hmark
      exact ⟨hkept _ hmark,hcom.trans hopen⟩
    · exact hnew
  situated := by
    intro g hg
    rcases hissued g hg with hold | hnew
    · exact situated_grown (h.situated g hold) hgrown
    · exact hnew
  owners := howners
  live_issued := hlive

theorem position_eq {A A' : Arena} (hcur : A'.current = A.current) (hbase : A'.curBase = A.curBase)
    (hptr : A'.curPtr = A.curPtr) : position A' = position A := by
  rw [position, position, hcur, Arena.curOffset, Arena.curOffset, hbase, hptr]

theorem inv_tick (h : Inv w) : Inv w.tick :=
  inv_of h h.wf (grown_refl _) (BumpLedger.sound_advance h.sound (le_refl _))
    (fun _ hm => Or.inl hm) (fun f hf => Or.inl ⟨f,hf,rfl,rfl,rfl⟩) (fun _ hm => hm)
    (fun _ hg => Or.inl hg) h.owners h.live_issued

theorem owners_take (h : Inv w) {o : Outcome}
    (hle : w.arena.dropRegistry.len ≤ o.arena.dropRegistry.len) :
    (w.take o).owners.length = (w.take o).arena.dropRegistry.len := by
  have howners := h.owners
  simp only [World.take, List.length_append, List.length_replicate]
  omega

theorem inv_take_unmoved (h : Inv w) {A' : Arena} (ret : Ret) (lost : ℕ)
    (hunmoved : Unmoved w.arena A') : Inv (w.take (answer A' ret lost)) := by
  have hpos := position_eq hunmoved.current_eq hunmoved.base_eq hunmoved.ptr_eq
  have hledger : ledger (w.take (answer A' ret lost)) =
      BumpLedger.advance (ledger w) (position A') := rfl
  apply inv_of h hunmoved.wf hunmoved.grown
  · rw [hledger]
    exact BumpLedger.sound_advance h.sound (le_of_eq hpos.symm)
  · exact fun _ hm => Or.inl hm
  · exact fun f hf => Or.inl ⟨f,hf,rfl,rfl,rfl⟩
  · exact fun _ hm => hm
  · exact fun _ hg => Or.inl hg
  · exact owners_take h (le_of_eq (congrArg DropRegistry.len hunmoved.registry.symm))
  · exact h.live_issued

theorem position_carved {A A₁ A' : Arena} {size align p : ℕ} (hcarved : Carved A size align p A₁)
    {registry : DropRegistry} (harena : A' = { A₁ with dropRegistry := registry }) :
    position A' = toLex (A₁.current,p - A₁.curBase + size) := by
  have hoff := curOffset_eq hcarved.wf
  rw [hcarved.end_eq, Nat.sub_add_comm hcarved.base_le] at hoff
  rw [harena, ← hoff]
  rfl

theorem grantOf_carved {o : Outcome} {size align p : ℕ} {A₁ : Arena}
    (hcarve : o.carved = some ⟨⟨p,size⟩,align⟩) {registry : DropRegistry}
    (harena : o.arena = { A₁ with dropRegistry := registry }) :
    w.grantOf o = [⟨w.clock,A₁.current,p - A₁.curBase,⟨⟨p,size⟩,align⟩,o.wrote,
      o.arena.dropRegistry.entries.drop w.arena.dropRegistry.len⟩] := by
  rw [World.grantOf, hcarve, harena]

theorem ledger_take_carved {o : Outcome} {size align p : ℕ} {A₁ : Arena}
    (hcarved : Carved w.arena size align p A₁) (hcarve : o.carved = some ⟨⟨p,size⟩,align⟩)
    {registry : DropRegistry} (harena : o.arena = { A₁ with dropRegistry := registry }) :
    ledger (w.take o) = BumpLedger.grant (ledger w) (toLex (A₁.current,p - A₁.curBase))
      (position o.arena) := by
  have hend := position_carved hcarved harena
  have hgrant := grantOf_carved (w := w) hcarve harena
  unfold ledger World.take BumpLedger.grant
  rw [hgrant]
  simp only [List.singleton_append, List.map_cons, Grant.piece]
  rw [hend]

theorem situated_carved {A A₁ : Arena} {size align p : ℕ} (hcarved : Carved A size align p A₁)
    (stamp : ℕ) {wrote : List Span} (owes : List DropSlot)
    (hwrote : ∀ s ∈ wrote, s.Within ⟨p,size⟩) :
    Situated A₁.blocks ⟨stamp,A₁.current,p - A₁.curBase,⟨⟨p,size⟩,align⟩,wrote,owes⟩ := by
  have hwf := hcarved.wf
  have hbase := hcarved.base_le
  have hptr := hwf.ptr_le
  rw [hcarved.end_eq, hwf.end_eq] at hptr
  refine ⟨current_lt hwf,?_,?_,hcarved.aligned,hwrote⟩
  · dsimp only
    rw [← hwf.base_eq]
    omega
  · dsimp only
    omega

theorem len_le_of_fills {k : Kind} {size p : ℕ} {A : Arena} {o : Outcome}
    (hfills : Fills k size p A o) : A.dropRegistry.len ≤ o.arena.dropRegistry.len := by
  obtain ⟨registry,harena,-,hentries⟩ := hfills.arena_eq
  rw [harena, DropRegistry.len_entries, DropRegistry.len_entries, hentries, List.length_append]
  exact Nat.le_add_right _ _

theorem inv_take_carved (h : Inv w) {o : Outcome} {k : Kind} {size align p : ℕ}
    {A₁ : Arena} (hcarved : Carved w.arena size align p A₁)
    (hcarve : o.carved = some ⟨⟨p,size⟩,align⟩) (hfills : Fills k size p A₁ o) :
    Inv (w.take o) := by
  have hlen := len_le_of_fills hfills
  have hwrote := hfills.wrote
  obtain ⟨registry,harena,-,-⟩ := hfills.arena_eq
  have hgrant := grantOf_carved (w := w) hcarve harena
  have hledger := ledger_take_carved hcarved hcarve harena
  have hpos := position_carved hcarved harena
  have hblocks : (w.take o).arena.blocks = A₁.blocks := by
    change o.arena.blocks = _
    rw [harena]
  apply inv_of h
  · change Wf o.arena
    rw [harena]
    exact wf_withRegistry hcarved.wf registry
  · rw [hblocks]
    exact hcarved.grown
  · rw [hledger]
    apply BumpLedger.sound_grant h.sound hcarved.above
    rw [hpos, Prod.Lex.toLex_le_toLex]
    exact Or.inr ⟨rfl,Nat.le_add_right _ _⟩
  · exact fun _ hm => Or.inl hm
  · exact fun f hf => Or.inl ⟨f,hf,rfl,rfl,rfl⟩
  · exact fun _ hm => hm
  · intro g hg
    change g ∈ w.grantOf o ++ w.issued at hg
    rw [hgrant, List.singleton_append, List.mem_cons] at hg
    rcases hg with rfl | hold
    · rw [hblocks]
      exact Or.inr (situated_carved hcarved _ _ hwrote)
    · exact Or.inl hold
  · exact owners_take h ((le_of_eq (congrArg DropRegistry.len hcarved.registry.symm)).trans hlen)
  · exact List.Sublist.append (List.Sublist.refl _) h.live_issued

theorem inv_take (h : Inv w) {sys : SystemAlloc} {r : Request} {o : Outcome}
    (ho : Served sys w.arena r o) : Inv (w.take o) := by
  cases ho with
  | carved _ _ _ hcarved hcarve hfills => exact inv_take_carved h hcarved hcarve hfills
  | failed _ _ _ _ hunmoved => exact inv_take_unmoved h _ _ hunmoved
  | answered _ => exact inv_take_unmoved h _ _ (unmoved_refl h.wf)

theorem inv_sweep (h : Inv w) {s : Swept} {since target : ℕ} (hwf : Wf s.arena)
    (hgrown : Grown w.arena.blocks s.arena.blocks)
    (hentries : s.arena.dropRegistry.entries = w.arena.dropRegistry.entries.take target)
    (hsound : BumpLedger.Sound (ledger (w.sweep s since))) : Inv (w.sweep s since) := by
  apply inv_of h hwf hgrown hsound
  · exact fun _ hm => Or.inl hm
  · exact fun f hf => Or.inl ⟨f,hf,rfl,rfl,rfl⟩
  · exact fun _ hm => hm
  · exact fun _ hg => Or.inl hg
  · have howners := h.owners
    simp only [World.sweep, List.length_take]
    rw [DropRegistry.len_entries] at howners ⊢
    rw [hentries, List.length_take]
    omega
  · change List.Sublist (if _ then _ else _) w.issued
    split
    · exact List.filter_sublist.trans h.live_issued
    · exact h.live_issued

/-- Rewinding to a checkpoint taken before: the ledger is cut back to it, or, when a destructor
panics, nothing moves. -/
theorem ledger_rewind (h : Inv w) (boom : ℕ → ℕ → Bool) {m : Mark} (hm : m ∈ w.marks) :
    ledger (w.sweep (w.arena.rewind boom m.cp) m.stamp) = BumpLedger.cut (ledger w) m.spot ∨
      ledger (w.sweep (w.arena.rewind boom m.cp) m.stamp) =
        BumpLedger.advance (ledger w) (ledger w).pos := by
  obtain ⟨-,-,hcases⟩ := rewind_cases boom h.wf (h.recallable m hm)
  rcases hcases with ⟨hpanic,-,harena⟩ | ⟨hpanic,-,hrewound⟩
  · right
    unfold ledger World.sweep BumpLedger.advance
    rw [hpanic, harena]
    rfl
  · left
    unfold ledger World.sweep BumpLedger.cut
    simp only [hpanic, if_true, rewound_position hrewound, List.filter_map]
    rfl

theorem inv_rewind (h : Inv w) (boom : ℕ → ℕ → Bool) {m : Mark} (hm : m ∈ w.marks) :
    Inv (w.sweep (w.arena.rewind boom m.cp) m.stamp) := by
  obtain ⟨-,hregistry,hcases⟩ := rewind_cases boom h.wf (h.recallable m hm)
  have hentries := congrArg DropRegistry.entries hregistry
  rw [DropRegistry.entries_runDropsUntil] at hentries
  have hsound : BumpLedger.Sound (ledger (w.sweep (w.arena.rewind boom m.cp) m.stamp)) := by
    rcases ledger_rewind h boom hm with heq | heq
    · rw [heq]
      exact BumpLedger.sound_cut h.sound (List.mem_map_of_mem hm)
    · rw [heq]
      exact BumpLedger.sound_advance h.sound (le_refl _)
  rcases hcases with ⟨-,-,harena⟩ | ⟨-,-,hrewound⟩
  · apply inv_sweep h _ _ hentries hsound
    · rw [harena]
      exact wf_withRegistry h.wf _
    · rw [harena]
      exact grown_refl _
  · exact inv_sweep h hrewound.wf hrewound.grown hentries hsound

theorem ledger_reset (h : Inv w) (boom : ℕ → ℕ → Bool) :
    ledger (w.sweep (w.arena.reset boom) 0) = BumpLedger.clear (ledger w) (toLex (0,0)) ∨
      ledger (w.sweep (w.arena.reset boom) 0) = BumpLedger.advance (ledger w) (ledger w).pos := by
  obtain ⟨-,-,hcases⟩ := reset_cases boom h.wf
  rcases hcases with ⟨hpanic,-,harena⟩ | ⟨hpanic,-,hemptied⟩
  · right
    unfold ledger World.sweep BumpLedger.advance
    rw [hpanic, harena]
    rfl
  · left
    unfold ledger World.sweep BumpLedger.clear
    simp [hpanic, emptied_position hemptied]

theorem inv_reset (h : Inv w) (boom : ℕ → ℕ → Bool) : Inv (w.sweep (w.arena.reset boom) 0) := by
  obtain ⟨-,hregistry,hcases⟩ := reset_cases boom h.wf
  have hentries := congrArg DropRegistry.entries hregistry
  rw [DropRegistry.runAllDrops, DropRegistry.entries_runDropsUntil] at hentries
  have hsound : BumpLedger.Sound (ledger (w.sweep (w.arena.reset boom) 0)) := by
    rcases ledger_reset h boom with heq | heq
    · rw [heq]
      exact BumpLedger.sound_clear h.sound _
    · rw [heq]
      exact BumpLedger.sound_advance h.sound (le_refl _)
  rcases hcases with ⟨-,-,harena⟩ | ⟨-,-,hemptied⟩
  · apply inv_sweep h _ _ hentries hsound
    · rw [harena]
      exact wf_withRegistry h.wf _
    · rw [harena]
      exact grown_refl _
  · exact inv_sweep h hemptied.wf hemptied.grown hentries hsound

theorem inv_note (h : Inv w) : Inv (w.note w.arena.checkpoint) := by
  have hsound : BumpLedger.Sound (ledger (w.note w.arena.checkpoint)) :=
    BumpLedger.sound_mark h.sound
  refine inv_of h h.wf (grown_refl _) hsound ?_ (fun f hf => Or.inl ⟨f,hf,rfl,rfl,rfl⟩)
    (fun _ hm => List.mem_cons_of_mem _ hm) (fun _ hg => Or.inl hg) h.owners h.live_issued
  intro m hm
  rcases List.mem_cons.mp hm with rfl | hold
  · exact Or.inr (recallable_checkpoint h.wf)
  · exact Or.inl hold

theorem inv_depth (h : Inv w) (n : ℕ) :
    Inv { w with arena := { w.arena with txnDepth := n } } :=
  ⟨wf_txnDepth h.wf n,h.sound,h.recallable,h.opened,h.situated,h.owners,h.live_issued⟩

theorem inv_opened (h : Inv w) {opened : List Open}
    (hopened : ∀ f ∈ opened, ⟨f.stamp,f.txn.checkpoint⟩ ∈ w.marks ∧ f.txn.committed = false) :
    Inv { w with opened := opened } :=
  ⟨h.wf,h.sound,h.recallable,hopened,h.situated,h.owners,h.live_issued⟩

/-- A rollback is a rewind of the arena, one level less deep, to the guard's checkpoint. -/
theorem drop_eq {f : Open} (h : Inv w) (hf : f ∈ w.opened) (boom : ℕ → ℕ → Bool) :
    f.txn.drop boom w.arena = Arena.rewind boom
      { w.arena with txnDepth := w.arena.txnDepth-1 } f.txn.checkpoint := by
  rw [Transaction.drop, (h.opened f hf).2]
  rfl

theorem inv_step (h : Inv w) {op : Op} (hop : Honest w op) : Inv (w.step op) := by
  cases op with
  | request sys r => exact inv_take h (serve_served h.wf hop.1 hop.2)
  | guarded sys r =>
    cases hopened : w.opened with
    | nil =>
      simp only [World.step, hopened]
      exact inv_tick h
    | cons f rest =>
      simp only [World.step, hopened]
      rcases txn_served h.wf hop.1 hop.2 f.txn with hserved | ⟨ret,-,lost,heq⟩
      · exact inv_take h hserved
      · rw [heq]
        exact inv_take_unmoved h ret lost (unmoved_refl h.wf)
  | checkpoint => exact inv_note h
  | rewind boom stamp =>
    cases hfound : w.markAt stamp with
    | none =>
      simp only [World.step, hfound]
      exact inv_tick h
    | some m =>
      simp only [World.step, hfound]
      exact inv_rewind h boom (List.mem_of_find?_eq_some hfound)
  | reset boom => exact inv_reset h boom
  | begin =>
    apply inv_opened (inv_depth (inv_note h) _)
    intro f hf
    rcases List.mem_cons.mp hf with rfl | hold
    · exact ⟨List.mem_cons_self,rfl⟩
    · obtain ⟨hmark,hopen⟩ := h.opened f hold
      exact ⟨List.mem_cons_of_mem _ hmark,hopen⟩
  | commit =>
    cases hopened : w.opened with
    | nil =>
      simp only [World.step, hopened]
      exact inv_tick h
    | cons f rest =>
      simp only [World.step, hopened]
      apply inv_opened (inv_depth (inv_tick h) _)
      intro g hg
      exact h.opened g (hopened ▸ List.mem_cons_of_mem _ hg)
  | rollback boom =>
    cases hopened : w.opened with
    | nil =>
      simp only [World.step, hopened]
      exact inv_tick h
    | cons f rest =>
      have hf : f ∈ w.opened := hopened ▸ List.mem_cons_self
      have hsweep := inv_rewind (inv_depth h (w.arena.txnDepth-1)) boom (h.opened f hf).1
      simp only [World.step, hopened]
      rw [drop_eq h hf boom]
      apply inv_opened hsweep
      intro g hg
      exact h.opened g (hopened ▸ List.mem_cons_of_mem _ hg)
  | setLimit bytes =>
    cases hopened : w.opened with
    | nil =>
      simp only [World.step, hopened]
      exact inv_tick h
    | cons f rest =>
      simp only [World.step, hopened]
      apply inv_opened (inv_tick h)
      intro g hg
      rcases List.mem_cons.mp hg with rfl | hold
      · exact h.opened f (hopened ▸ List.mem_cons_self)
      · exact h.opened g (hopened ▸ List.mem_cons_of_mem _ hold)

end steps

theorem inv_start {A : Arena} (h : Wf A) (hentries : A.dropRegistry.entries = []) :
    Inv (World.start A) where
  wf := h
  sound := ⟨List.nil_sublist _,List.Pairwise.nil,nofun,nofun,nofun,nofun⟩
  recallable := nofun
  opened := nofun
  situated := nofun
  owners := by
    change 0 = A.dropRegistry.len
    rw [DropRegistry.len_entries, hentries]
    rfl
  live_issued := List.nil_sublist _

/-- The invariant holds in every world reached by honest steps. -/
theorem inv_reached {ok : World → Op → Prop} (hok : ∀ w op, ok w op → Honest w op) {w : World}
    (h : Reached ok w) : Inv w := by
  obtain ⟨sys,feature,initialBytes,A,ops,hs,hA,halong,rfl⟩ := h
  obtain ⟨hwf,-,-,-,-,hregistry⟩ := wf_withCapacity hs hA
  apply run_invariant World.step ok Inv (fun w op hw hop => inv_step hw (hok w op hop)) _ ops _ halong
  exact inv_start hwf (by rw [hregistry, DropRegistry.entries_new])

def oneBlock (capacity base : ℕ) : SystemAlloc :=
  fun c a => if c = capacity ∧ a = minBlockAlign then some base else none

def noMemory : SystemAlloc := fun _ _ => none

theorem grants_oneBlock {blocks : Blocks} {capacity base : ℕ} (hpos : 0 < base)
    (hdvd : minBlockAlign ∣ base) (htop : base + capacity ≤ addressTop)
    (hapart : ∀ i < blocks.len, (⟨base,capacity⟩ : Span).Apart (blocks.get i).extent) :
    Grants (oneBlock capacity base) blocks := by
  intro c a b hsys
  simp only [oneBlock, Option.ite_none_right_eq_some, Option.some.injEq] at hsys
  obtain ⟨⟨rfl,rfl⟩,rfl⟩ := hsys
  exact ⟨hpos,hdvd,htop,hapart⟩

theorem grants_second {blocks : Blocks} {capacity base : ℕ} (hdvd : minBlockAlign ∣ base)
    (htop : base + capacity ≤ addressTop) (hlen : blocks.len = 1)
    (hfirst : (blocks.get 0).base + (blocks.get 0).capacity ≤ base) (hpos : 0 < base) :
    Grants (oneBlock capacity base) blocks := by
  apply grants_oneBlock hpos hdvd htop
  intro i hi
  obtain rfl : i = 0 := by omega
  exact apart_symm (apart_of_le hfirst)

theorem grants_noMemory (blocks : Blocks) : Grants noMemory blocks := nofun

def eightBytes : Ty := ⟨8,8,true,⟨3,by norm_num,by norm_num⟩,by norm_num,by norm_num⟩

def smallArena (feature : Bool) (capacity : ℕ) : Option Arena :=
  Arena.withCapacity (oneBlock capacity 4096) feature capacity

theorem grants_small {capacity : ℕ} (hcap : capacity ≤ 2^62) :
    Grants (oneBlock capacity 4096) (InlineVec.new : Blocks) := by
  have htop : 4096 + capacity ≤ addressTop := by
    unfold addressTop
    omega
  exact grants_oneBlock (by norm_num) (by norm_num [minBlockAlign]) htop nofun

theorem reached_small {ok : World → Op → Prop} {feature : Bool} {capacity : ℕ} {A : Arena}
    (hcap : capacity ≤ 2^62) (hA : smallArena feature capacity = some A) (ops : List Op)
    (h : Along World.step ok (World.start A) ops) :
    Reached ok (run World.step (World.start A) ops) :=
  ⟨_,feature,capacity,A,ops,grants_small hcap,hA,h,rfl⟩

end FastArena.ArenaWorld
