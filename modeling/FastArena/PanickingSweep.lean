import FastArena.FullDrain
import FastArena.DropSafety
import FastArena.Rewind

/-!
# Sweeps that end in a panic

A rewind, a reset and a rollback run the destructors first and take the memory back
afterwards, and a destructor's panic leaves between the two. The entries are gone
then, and the position, the offsets and the counters are still the old ones. So the
two ways out agree exactly when no destructor panics or nothing was to be taken back.
-/

set_option autoImplicit false

namespace FastArena.PanickingSweep
open FastArena.MachineWord FastArena.ByteSpan FastArena.ArenaBlock FastArena.InlineStorage
  FastArena.DropTracking FastArena.ArenaCore FastArena.ArenaInvariant FastArena.RawRequest
  FastArena.ArenaSweep FastArena.ArenaRequests FastArena.ArenaTransaction FastArena.LabelledRun
  FastArena.ArenaWorld FastArena.ArenaSteps FastArena.DropOrder FastArena.Rewind FastArena.FullDrain
  FastArena.DropSafety

inductive Call where
  | rewind (stamp : ℕ)
  | reset
  | rollback

def Call.op (boom : ℕ → ℕ → Bool) : Call → ArenaWorld.Op
  | .rewind stamp => .rewind boom stamp
  | .reset => .reset boom
  | .rollback => .rollback boom

def Call.swept (boom : ℕ → ℕ → Bool) (w : World) : Call → Option Swept
  | .rewind stamp => (w.markAt stamp).map (fun m => w.arena.rewind boom m.cp)
  | .reset => some (w.arena.reset boom)
  | .rollback => w.opened.head?.map (fun f => f.txn.drop boom w.arena)

def Call.goal (w : World) : Call → Option Checkpoint
  | .rewind stamp => (w.markAt stamp).map (·.cp)
  | .reset => some ⟨0,0,0,0⟩
  | .rollback => w.opened.head?.map (·.txn.checkpoint)

def Call.depth (A : Arena) : Call → ℕ
  | .rollback => A.txnDepth-1
  | _ => A.txnDepth

structure Same (A A' : Arena) : Prop where
  current_eq : A'.current = A.current
  ptr_eq : A'.curPtr = A.curPtr
  len_eq : A'.blocks.len = A.blocks.len
  offset_eq : ∀ i < A.blocks.len, (A'.blocks.get i).offset = (A.blocks.get i).offset
  allocated_eq : A'.bytesAllocated = A.bytesAllocated
  reserved_eq : A'.bytesReserved = A.bytesReserved
  registry_eq : A'.dropRegistry.len = A.dropRegistry.len
  depth_eq : A'.txnDepth = A.txnDepth

def filledTo (A : Arena) (i : ℕ) : ℕ :=
  if i = A.current then A.curOffset else (A.blocks.get i).offset

def Occupied (A : Arena) (x : ℕ) : Prop :=
  ∃ i < A.blocks.len, (A.blocks.get i).base ≤ x ∧ x < (A.blocks.get i).base + filledTo A i

def DropCall.bytes (c : DropCall) : Span := ⟨c.addr,c.slot.ty.size⟩

/-- A call against the same call when it exits normally. -/
structure Consistent (normal s : Swept) : Prop where
  left : s.panic ≠ none → Same normal.arena s.arena
  freed : ∀ c ∈ s.calls, ∀ x, (DropCall.bytes c).Has x → ¬ Occupied s.arena x

def Calm (A : Arena) (cp : Checkpoint) (boom : ℕ → ℕ → Bool) : Prop :=
  ∀ c, Owed A.dropRegistry cp.dropRegistryLen c → boom c.entry c.elem = false

/-- There is nothing to take back: position, stored offset and counter are what the call would
make them. -/
def Settled (A : Arena) (cp : Checkpoint) : Prop :=
  (A.current = cp.blockIdx ∧ A.curOffset = cp.offset) ∧
    (A.blocks.get cp.blockIdx).offset = cp.offset ∧
    A.bytesAllocated = wsub cp.bytesAllocated cp.offset

section outcomes
variable {w : World}

theorem rewound_emptied {A A' : Arena} (h : Wf A) (he : Emptied A A') :
    Rewound A ⟨0,0,0,0⟩ A' := by
  have hpos : 0 < A.blocks.len := by
    have := h.high_lt
    omega
  have hbase : A'.curBase = (A.blocks.get 0).base := by
    rw [he.wf.base_eq, he.current_eq, (extent_inj (he.grown.extent_eq 0 hpos)).1]
  exact {
    wf := he.wf
    grown := he.grown
    len_eq := he.len_eq
    current_eq := he.current_eq
    base_eq := hbase
    ptr_eq := he.ptr_eq.trans hbase
    bytes := he.bytes
    reserved := he.reserved
    below := fun i hi => absurd hi (Nat.not_lt_zero i)
    at_cp := he.empty 0 hpos
    above := fun i hi _ => he.empty i hi
    growth := he.growth
    depth := he.depth }

structure Exits (A : Arena) (cp : Checkpoint) (boom : ℕ → ℕ → Bool) (s : Swept) : Prop where
  calls : s.calls = callsUntil boom cp.dropRegistryLen A.dropRegistry.entries
  entries : s.arena.dropRegistry.entries = A.dropRegistry.entries.take cp.dropRegistryLen
  ways : (s.panic = some dropPanic ∧ ¬ Calm A cp boom ∧
      s.arena = { A with dropRegistry := s.arena.dropRegistry }) ∨
    (s.panic = none ∧ Calm A cp boom ∧ Rewound A cp s.arena)

theorem not_calm_iff {A : Arena} {cp : Checkpoint} {boom : ℕ → ℕ → Bool} :
    (A.dropRegistry.runDropsUntil boom cp.dropRegistryLen).2.2 = true ↔ ¬ Calm A cp boom := by
  rw [panicked_iff_owed]
  constructor
  · rintro ⟨c,hc,hboom⟩ hcalm
    rw [hcalm c hc] at hboom
    exact Bool.noConfusion hboom
  · intro h
    by_contra hno
    exact h (fun c hc => Bool.eq_false_iff.mpr (fun hboom => hno ⟨c,hc,hboom⟩))

theorem calm_iff {A : Arena} {cp : Checkpoint} {boom : ℕ → ℕ → Bool} :
    (A.dropRegistry.runDropsUntil boom cp.dropRegistryLen).2.2 = false ↔ Calm A cp boom := by
  rw [← Bool.not_eq_true, not_calm_iff, not_not]

theorem exits_rewind {A : Arena} (h : Wf A) {cp : Checkpoint} (hcp : Recallable A.blocks cp)
    (boom : ℕ → ℕ → Bool) : Exits A cp boom (A.rewind boom cp) := by
  obtain ⟨hcalls,hregistry,hcases⟩ := rewind_cases boom h hcp
  refine ⟨hcalls,?_,?_⟩
  · rw [hregistry, DropRegistry.entries_runDropsUntil]
  · rcases hcases with ⟨hpanic,hflag,harena⟩ | ⟨hpanic,hflag,hrewound⟩
    · refine Or.inl ⟨hpanic,not_calm_iff.mp hflag,?_⟩
      rw [hregistry]
      exact harena
    · exact Or.inr ⟨hpanic,calm_iff.mp hflag,hrewound⟩

theorem exits_reset {A : Arena} (h : Wf A) (boom : ℕ → ℕ → Bool) :
    Exits A ⟨0,0,0,0⟩ boom (A.reset boom) := by
  obtain ⟨hcalls,hregistry,hcases⟩ := reset_cases boom h
  refine ⟨hcalls,?_,?_⟩
  · rw [hregistry, DropRegistry.runAllDrops, DropRegistry.entries_runDropsUntil]
  · rcases hcases with ⟨hpanic,hflag,harena⟩ | ⟨hpanic,hflag,hemptied⟩
    · refine Or.inl ⟨hpanic,not_calm_iff.mp hflag,?_⟩
      rw [hregistry]
      exact harena
    · exact Or.inr ⟨hpanic,calm_iff.mp hflag,rewound_emptied h hemptied⟩

theorem goal_recallable (h : Inv w) {c : Call} {cp : Checkpoint} (hgoal : c.goal w = some cp) :
    Recallable w.arena.blocks cp := by
  cases c with
  | rewind stamp =>
    obtain ⟨m,hm,rfl⟩ := Option.map_eq_some_iff.mp hgoal
    exact h.recallable m (List.mem_of_find?_eq_some hm)
  | reset =>
    obtain rfl := Option.some.inj hgoal
    have hpos : 0 < w.arena.blocks.len := by
      have := h.wf.high_lt
      omega
    exact ⟨hpos,Nat.zero_le _⟩
  | rollback =>
    obtain ⟨f,hf,rfl⟩ := Option.map_eq_some_iff.mp hgoal
    exact h.recallable _ (h.opened f (List.mem_of_head? hf)).1

theorem exits_swept (h : Inv w) {c : Call} {cp : Checkpoint} (hgoal : c.goal w = some cp)
    {boom : ℕ → ℕ → Bool} {s : Swept} (hs : c.swept boom w = some s) :
    Exits { w.arena with txnDepth := c.depth w.arena } cp boom s := by
  have hrecall := goal_recallable h hgoal
  cases c with
  | rewind stamp =>
    obtain ⟨m,hm,rfl⟩ := Option.map_eq_some_iff.mp hgoal
    simp only [Call.swept, hm, Option.map_some, Option.some.injEq] at hs
    subst hs
    exact exits_rewind h.wf hrecall boom
  | reset =>
    obtain rfl := Option.some.inj hgoal
    obtain rfl := Option.some.inj hs
    exact exits_reset h.wf boom
  | rollback =>
    obtain ⟨f,hf,rfl⟩ := Option.map_eq_some_iff.mp hgoal
    simp only [Call.swept, hf, Option.map_some, Option.some.injEq] at hs
    subst hs
    rw [drop_eq h (List.mem_of_head? hf) boom]
    exact exits_rewind (wf_txnDepth h.wf (w.arena.txnDepth-1)) hrecall boom

theorem calm_quiet (A : Arena) (cp : Checkpoint) : Calm A cp quiet := fun _ _ => rfl

/-- After a panic the arena is as after a normal exit exactly when it was so before the call. -/
theorem same_iff_settled {A : Arena} (h : Wf A) {cp : Checkpoint} (hcp : Recallable A.blocks cp)
    {boom : ℕ → ℕ → Bool} {normal s : Swept} (hnormal : Exits A cp quiet normal)
    (hs : Exits A cp boom s) (harena : s.arena = { A with dropRegistry := s.arena.dropRegistry }) :
    Same normal.arena s.arena ↔ Settled A cp := by
  have hregistry : s.arena.dropRegistry.len = normal.arena.dropRegistry.len := by
    rw [DropRegistry.len_entries, DropRegistry.len_entries, hs.entries, hnormal.entries]
  obtain ⟨-,hno,-⟩ | ⟨-,-,hrewound⟩ := hnormal.ways
  · exact absurd (calm_quiet A cp) hno
  have hidx : cp.blockIdx < normal.arena.blocks.len := hrewound.len_eq ▸ hcp.idx_lt
  have hptr := hrewound.ptr_eq
  rw [harena]
  constructor
  · intro hsame
    have hcurrent : A.current = cp.blockIdx := hsame.current_eq.trans hrewound.current_eq
    refine ⟨⟨hcurrent,?_⟩,(hsame.offset_eq _ hidx).trans hrewound.at_cp,
      hsame.allocated_eq.trans hrewound.bytes⟩
    rw [curOffset_eq h, show A.curPtr = _ from hsame.ptr_eq, hptr, h.base_eq, hcurrent,
      Nat.add_sub_cancel_left]
  · rintro ⟨⟨hcurrent,hoffset⟩,hstored,hbytes⟩
    refine ⟨hcurrent.trans hrewound.current_eq.symm,?_,hrewound.len_eq.symm,?_,
      hbytes.trans hrewound.bytes.symm,hrewound.reserved.symm,hregistry,hrewound.depth.symm⟩
    · change A.curPtr = _
      rw [curPtr_eq h, hptr, hoffset, h.base_eq, hcurrent]
    · intro i hi
      rw [hrewound.len_eq] at hi
      rcases lt_trichotomy i cp.blockIdx with hlt | rfl | hgt
      · rw [hrewound.below i hlt hi]
      · exact hstored.trans hrewound.at_cp.symm
      · rw [hrewound.above i hi hgt]
        exact h.tail i hi (hcurrent ▸ hgt)

theorem not_occupied {A : Arena} (h : Wf A) {g : Grant} (hg : Situated A.blocks g)
    (hlo : position A ≤ g.piece.lo) {x : ℕ} (hx : g.region.span.Has x) : ¬ Occupied A x := by
  rintro ⟨i,hi,hlow,hhigh⟩
  have hoffset : filledTo A i ≤ (A.blocks.get i).capacity := by
    unfold filledTo
    split
    · rename_i hcurrent
      rw [hcurrent]
      exact curOffset_le h
    · exact (h.laid.placed i hi).offset_le
  obtain ⟨hlane,hle⟩ := @grant_byte ⟨A,0,[],[],[],[],[],[],[]⟩ h.laid g hg i
    (x - (A.blocks.get i).base) hi (by dsimp only; omega) (by
      dsimp only
      rw [Nat.add_sub_cancel' hlow]
      exact hx)
  rw [Grant.piece, position, Prod.Lex.toLex_le_toLex] at hlo
  unfold filledTo at hhigh
  dsimp only at hlo hle
  rcases hlo with hlater | ⟨hsame,hafter⟩
  · rw [if_neg (by omega), h.tail i hi (by omega)] at hhigh
    omega
  · rw [if_pos (by omega)] at hhigh
    omega

end outcomes

/-- What a valid checkpoint knows of the present: the arena has not been below it since it was
taken, and the entries behind its saved length were registered since. Every entry is what its
owner's grant owes. -/
structure Anchored (w : World) : Prop where
  since : ∀ m ∈ w.marks, m.stamp ∈ w.valid → ∃ A : Arena, A.checkpoint = m.cp ∧ Since A m.stamp w
  later : ∀ m ∈ w.marks, m.stamp ∈ w.valid → ∀ o ∈ w.owners.drop m.cp.dropRegistryLen, m.stamp ≤ o
  entries : ∀ e ∈ w.arena.dropRegistry.entries.zip w.owners,
    ∃ g ∈ w.issued, g.stamp = e.2 ∧ g.owes = [e.1]
  owing : ∀ g ∈ w.issued, Owing g
  valid_pos : ∀ s ∈ w.valid, 0 < s
  clock_pos : 0 < w.clock

section anchored
variable {w : World}

theorem anchored_still (h : Anchored w) {w' : World}
    (hsince : ∀ {A : Arena} {since : ℕ}, Since A since w → Since A since w')
    (hregistry : w'.arena.dropRegistry = w.arena.dropRegistry) (howners : w'.owners = w.owners)
    (hissued : w'.issued = w.issued) (hmarks : w'.marks = w.marks) (hvalid : w'.valid = w.valid)
    (hclock : w'.clock = w.clock+1) : Anchored w' where
  since := by
    intro m hm hv
    obtain ⟨A,hcp,hs⟩ := h.since m (hmarks ▸ hm) (hvalid ▸ hv)
    exact ⟨A,hcp,hsince hs⟩
  later := by
    rw [hmarks, hvalid, howners]
    exact h.later
  entries := by
    rw [hregistry, howners, hissued]
    exact h.entries
  owing := by
    rw [hissued]
    exact h.owing
  valid_pos := by
    rw [hvalid]
    exact h.valid_pos
  clock_pos := by omega

theorem anchored_served (hinv : Inv w) (h : Anchored w) {sys : SystemAlloc} {r : Request}
    {o : Outcome} (ho : Served sys w.arena r o) : Anchored (w.take o) := by
  have hsince : ∀ {A : Arena} {since : ℕ}, Since A since w → Since A since (w.take o) :=
    fun hs => since_served hs ho
  cases ho with
  | carved _ _ _ hcarved hcarve hfills =>
    obtain ⟨g,hstamp,-,-,howing,-,hissued,hentries,howners,-,-,-⟩ :=
      take_carved hcarved hcarve hfills
    refine ⟨?_,?_,?_,?_,h.valid_pos,Nat.succ_pos _⟩
    · intro m hm hv
      obtain ⟨A,hcp,hs⟩ := h.since m hm hv
      exact ⟨A,hcp,hsince hs⟩
    · intro m hm hv q hq
      rw [howners, List.drop_append] at hq
      rcases List.mem_append.mp hq with hold | hnew
      · exact h.later m hm hv q hold
      · rw [List.eq_of_mem_replicate (List.mem_of_mem_drop hnew)]
        exact (mark_past hinv hm).le
    · intro e he
      rw [hentries, howners, List.zip_append (len_owners hinv).symm, zip_replicate_length,
        ← hstamp] at he
      rw [hissued]
      rcases List.mem_append.mp he with hold | hnew
      · obtain ⟨g',hg',howes⟩ := h.entries e hold
        exact ⟨g',List.mem_cons_of_mem _ hg',howes⟩
      · obtain ⟨s,hs,rfl⟩ := List.mem_map.mp hnew
        rcases howing with hnone | ⟨s',hs',-⟩
        · rw [hnone] at hs
          exact absurd hs List.not_mem_nil
        · obtain rfl : s = s' := by rwa [hs', List.mem_singleton] at hs
          exact ⟨g,List.mem_cons_self,rfl,hs'⟩
    · intro g' hg'
      rw [hissued] at hg'
      rcases List.mem_cons.mp hg' with rfl | hold
      · exact howing
      · exact h.owing g' hold
  | failed _ _ _ _ hunmoved =>
    exact anchored_still h hsince hunmoved.registry (take_answer hunmoved.registry _ _) rfl rfl rfl rfl
  | answered _ => exact anchored_still h hsince rfl (take_answer rfl _ _) rfl rfl rfl rfl

theorem anchored_note (hinv : Inv w) (h : Anchored w) : Anchored (w.note w.arena.checkpoint) := by
  have hold : ∀ m ∈ w.marks, m.stamp ∈ (w.note w.arena.checkpoint).valid → m.stamp ∈ w.valid := by
    intro m hm hv
    rcases List.mem_cons.mp hv with heq | hv
    · exact absurd heq (Nat.ne_of_lt (mark_past hinv hm))
    · exact hv
  refine ⟨?_,?_,h.entries,h.owing,?_,Nat.succ_pos _⟩
  · intro m hm hv
    rcases List.mem_cons.mp hm with rfl | hm
    · exact ⟨w.arena,rfl,since_note (since_start hinv)⟩
    · obtain ⟨A,hcp,hs⟩ := h.since m hm (hold m hm hv)
      exact ⟨A,hcp,since_note hs⟩
  · intro m hm hv q hq
    rcases List.mem_cons.mp hm with rfl | hm
    · change q ∈ w.owners.drop w.arena.dropRegistry.len at hq
      rw [← hinv.owners, List.drop_length] at hq
      exact absurd hq List.not_mem_nil
    · exact h.later m hm (hold m hm hv) q hq
  · intro s hs
    rcases List.mem_cons.mp hs with rfl | hs
    · exact h.clock_pos
    · exact h.valid_pos s hs

theorem anchored_sweep (hinv : Inv w) (h : Anchored w) {s : Swept} {since target : ℕ}
    (hentries : s.arena.dropRegistry.entries = w.arena.dropRegistry.entries.take target)
    (hsince : ∀ {A : Arena} {t : ℕ}, t ≤ since → 0 < t → Since A t w → Since A t (w.sweep s since)) :
    Anchored (w.sweep s since) := by
  refine ⟨?_,?_,?_,h.owing,fun t ht => h.valid_pos t (mem_valid_sweep ht).1,Nat.succ_pos _⟩
  · intro m hm hv
    obtain ⟨hvalid,hle⟩ := mem_valid_sweep hv
    obtain ⟨A,hcp,hs⟩ := h.since m hm hvalid
    exact ⟨A,hcp,hsince hle (h.valid_pos _ hvalid) hs⟩
  · intro m hm hv q hq
    rw [owners_sweep hinv since hentries, List.drop_take] at hq
    exact h.later m hm (mem_valid_sweep hv).1 q (List.mem_of_mem_take hq)
  · intro e he
    change e ∈ s.arena.dropRegistry.entries.zip (w.sweep s since).owners at he
    rw [zip_sweep hinv since hentries] at he
    exact h.entries e (List.mem_of_mem_take he)

theorem anchored_depth (h : Anchored w) (n : ℕ) : Anchored (atDepth w n) where
  since := by
    intro m hm hv
    obtain ⟨A,hcp,hs⟩ := h.since m hm hv
    exact ⟨A,hcp,since_depth hs n⟩
  later := h.later
  entries := h.entries
  owing := h.owing
  valid_pos := h.valid_pos
  clock_pos := h.clock_pos

theorem anchored_opened (h : Anchored w) (opened : List Open) :
    Anchored { w with opened := opened } where
  since := by
    intro m hm hv
    obtain ⟨A,hcp,hs⟩ := h.since m hm hv
    exact ⟨A,hcp,hs.above,hs.grown,hs.kept,hs.registry,hs.marks⟩
  later := h.later
  entries := h.entries
  owing := h.owing
  valid_pos := h.valid_pos
  clock_pos := h.clock_pos

theorem anchored_step (hinv : Inv w) (h : Anchored w) {op : ArenaWorld.Op} (hop : Honest w op) :
    Anchored (w.step op) := by
  have hstep := stepped hinv hop
  generalize w.step op = w' at hstep
  cases hstep with
  | served _ _ hserved => exact anchored_served hinv h hserved
  | declined _ =>
    exact anchored_still h (fun hs => since_advance hs rfl (grown_refl _) (fun _ _ => rfl)
      hs.registry rfl) rfl (take_answer rfl _ _) rfl rfl rfl rfl
  | ticked _ =>
    exact anchored_still h (fun hs => since_advance hs rfl (grown_refl _) (fun _ _ => rfl)
      hs.registry rfl) rfl rfl rfl rfl rfl rfl
  | noted _ => exact anchored_opened (anchored_depth (anchored_note hinv h) _) _
  | @rewound boom n m opened hm _ _ _ =>
    have hinv' : Inv (atDepth w n) := inv_depth hinv n
    obtain ⟨-,hregistry,-⟩ := rewind_cases boom hinv'.wf (hinv'.recallable m hm)
    apply anchored_opened (anchored_sweep hinv' (anchored_depth h n) _ _)
    · exact m.cp.dropRegistryLen
    · rw [hregistry, DropRegistry.entries_runDropsUntil]
    · exact fun hle _ hs => since_rewind hinv' hs boom hm hle
  | @reset boom _ =>
    obtain ⟨-,hregistry,-⟩ := reset_cases boom hinv.wf
    apply anchored_sweep hinv h
    · rw [hregistry, DropRegistry.runAllDrops, DropRegistry.entries_runDropsUntil]
    · exact fun hle hpos _ => absurd hpos (Nat.not_lt.mpr hle)

theorem anchored_start (A : Arena) : Anchored (World.start A) where
  since := fun _ hm => absurd hm List.not_mem_nil
  later := fun _ hm => absurd hm List.not_mem_nil
  entries := by
    intro e he
    change e ∈ A.dropRegistry.entries.zip [] at he
    rw [List.zip_nil_right] at he
    exact absurd he List.not_mem_nil
  owing := fun _ hg => absurd hg List.not_mem_nil
  valid_pos := fun _ hs => absurd hs List.not_mem_nil
  clock_pos := Nat.one_pos

theorem anchored_reached (h : Reached Honest w) : Inv w ∧ Anchored w := by
  obtain ⟨sys,feature,initialBytes,A,ops,hs,hA,halong,rfl⟩ := h
  obtain ⟨hwf,-,-,-,-,hregistry⟩ := wf_withCapacity hs hA
  have hentries : A.dropRegistry.entries = [] := by rw [hregistry, DropRegistry.entries_new]
  exact run_invariant World.step Honest (fun w => Inv w ∧ Anchored w)
    (fun _ _ hw hop => ⟨inv_step hw.1 hop,anchored_step hw.1 hw.2 hop⟩) _ ops
    ⟨inv_start hwf hentries,anchored_start A⟩ halong

theorem goal_mark (hinv : Inv w) {c : Call} {boom : ℕ → ℕ → Bool} {cp : Checkpoint}
    (hgoal : c.goal w = some cp) (hvalid : StillValid w (c.op boom)) :
    cp = ⟨0,0,0,0⟩ ∨ ∃ m ∈ w.marks, m.cp = cp ∧ m.stamp ∈ w.valid := by
  cases c with
  | rewind stamp =>
    obtain ⟨m,hm,rfl⟩ := Option.map_eq_some_iff.mp hgoal
    have hstamp : m.stamp = stamp := by simpa using List.find?_some hm
    exact Or.inr ⟨m,List.mem_of_find?_eq_some hm,rfl,hstamp ▸ hvalid⟩
  | reset => exact Or.inl (Option.some.inj hgoal).symm
  | rollback =>
    obtain ⟨f,hf,rfl⟩ := Option.map_eq_some_iff.mp hgoal
    exact Or.inr ⟨_,(hinv.opened f (List.mem_of_head? hf)).1,rfl,hvalid f hf⟩

theorem destroyed_above (hinv : Inv w) (h : Anchored w) {cp : Checkpoint}
    (hcp : cp = ⟨0,0,0,0⟩ ∨ ∃ m ∈ w.marks, m.cp = cp ∧ m.stamp ∈ w.valid) {k : ℕ} {slot : DropSlot}
    (hk : cp.dropRegistryLen ≤ k) (hget : w.arena.dropRegistry.entries[k]? = some slot) :
    ∃ g ∈ w.issued, slot.extent = g.region.span ∧ place cp ≤ g.piece.lo := by
  obtain ⟨g,hg,hstamp,howes⟩ := h.entries _ (mem_zip_owner hinv hget)
  refine ⟨g,hg,owing_extent (h.owing g hg) howes,?_⟩
  rcases hcp with rfl | ⟨m,hm,rfl,hv⟩
  · rw [place, Grant.piece, Prod.Lex.toLex_le_toLex]
    dsimp only
    omega
  · obtain ⟨A,hA,hsince⟩ := h.since m hm hv
    have hlen : k < w.owners.length := by
      rw [len_owners hinv]
      exact (List.getElem?_eq_some_iff.mp hget).1
    have howner : w.owners.getD k 0 ∈ w.owners.drop m.cp.dropRegistryLen := by
      rw [List.getD_eq_getElem?_getD, List.getElem?_eq_getElem hlen, Option.getD_some]
      apply List.mem_iff_getElem?.mpr
      refine ⟨k - m.cp.dropRegistryLen,?_⟩
      rw [List.getElem?_drop, Nat.add_sub_cancel' hk, List.getElem?_eq_getElem hlen]
    rw [← hA]
    exact hsince.above.issued g.piece (List.mem_map_of_mem hg)
      (le_of_le_of_eq (h.later m hm hv _ howner) hstamp.symm)

theorem bytes_within {c : DropCall} (h : c.elem < c.slot.count) :
    (DropCall.bytes c).Within c.slot.extent := by
  have hmul : (c.elem+1) * c.slot.ty.size ≤ c.slot.count * c.slot.ty.size :=
    Nat.mul_le_mul_right _ h
  rw [Nat.add_mul, Nat.one_mul] at hmul
  refine ⟨Nat.le_add_right _ _,?_⟩
  unfold DropCall.bytes DropCall.addr DropSlot.extent
  dsimp only
  omega

theorem freed_at (hinv : Inv w) (h : Anchored w) {cp : Checkpoint}
    (hcp : cp = ⟨0,0,0,0⟩ ∨ ∃ m ∈ w.marks, m.cp = cp ∧ m.stamp ∈ w.valid) {boom : ℕ → ℕ → Bool}
    {A : Arena} (hA : Wf A) (hgrown : Grown w.arena.blocks A.blocks) (hpos : position A = place cp)
    {c : DropCall} (hc : c ∈ callsUntil boom cp.dropRegistryLen w.arena.dropRegistry.entries)
    {x : ℕ} (hx : (DropCall.bytes c).Has x) : ¬ Occupied A x := by
  obtain ⟨htarget,hget,helem⟩ := mem_callsUntil hc
  obtain ⟨g,hg,hspan,hfloor⟩ := destroyed_above hinv h hcp htarget hget
  apply not_occupied hA (situated_grown (hinv.situated g hg) hgrown) (hpos ▸ hfloor)
  rw [← hspan]
  exact within_has (bytes_within helem) hx

end anchored

/-- A rewind to a valid checkpoint, a reset or a rollback leaves the same arena by a panic as by a
normal exit, and never leaves a destroyed value allocated, if and only if none of the destructors
it runs panics or there is nothing to take back. -/
theorem sweep_consistent_iff {w : World} (hw : Reached Honest w) (c : Call) (boom : ℕ → ℕ → Bool)
    (hvalid : StillValid w (c.op boom)) {cp : Checkpoint} {normal s : Swept}
    (hgoal : c.goal w = some cp) (hnormal : c.swept quiet w = some normal)
    (hs : c.swept boom w = some s) :
    Consistent normal s ↔ Calm w.arena cp boom ∨ Settled w.arena cp := by
  obtain ⟨hinv,hanchored⟩ := anchored_reached hw
  have hcp := goal_mark hinv hgoal hvalid
  have hexits := exits_swept hinv hgoal hs
  have hwf : Wf { w.arena with txnDepth := c.depth w.arena } := wf_txnDepth hinv.wf _
  have hsame := same_iff_settled hwf (goal_recallable hinv hgoal) (exits_swept hinv hgoal hnormal)
    hexits
  rcases hexits.ways with ⟨hpanic,hno,harena⟩ | ⟨hpanic,hcalm,hrewound⟩
  · constructor
    · intro hconsistent
      have hleft := hconsistent.left (by rw [hpanic]; exact Option.some_ne_none _)
      exact Or.inr ((hsame harena).mp hleft)
    · rintro (hcalm | hsettled)
      · exact absurd hcalm hno
      · refine ⟨fun _ => (hsame harena).mpr hsettled,fun k hk x hx => ?_⟩
        rw [hexits.calls] at hk
        rw [harena]
        apply freed_at hinv hanchored hcp (wf_withRegistry hwf _) (grown_refl _) _ hk hx
        rw [position, place]
        exact congrArg toLex (Prod.ext hsettled.1.1 hsettled.1.2)
  · refine iff_of_true ⟨fun hno => absurd hpanic hno,fun k hk x hx => ?_⟩ (Or.inl hcalm)
    rw [hexits.calls] at hk
    exact freed_at hinv hanchored hcp hrewound.wf hrewound.grown (rewound_position hrewound) hk hx

theorem sweep_consistent_iff_tokens : ∃ A, smallArena true 64 = some A ∧
    let w := run World.step (World.start A) [.checkpoint,.request noMemory ⟨.slice token 2 2,true⟩]
    let s := w.arena.rewind (fun _ e => e = 1) A.checkpoint
    s.panic = some dropPanic ∧ s.calls.length = 2 ∧
      Consistent (w.arena.rewind quiet A.checkpoint) s := by
  obtain ⟨A,hA⟩ : ∃ A, smallArena true 64 = some A := ⟨_,rfl⟩
  have hreached : Reached Honest (run World.step (World.start A)
      [.checkpoint,.request noMemory ⟨.slice token 2 2,true⟩]) :=
    reached_small (by norm_num) hA _ ⟨trivial,⟨grants_noMemory _,show 2 < 2^64 by norm_num⟩,trivial⟩
  refine ⟨A,hA,?_,?_,?_⟩
  · cases hA
    decide +kernel
  · cases hA
    decide +kernel
  · refine (sweep_consistent_iff hreached (.rewind 1) (fun _ e => e = 1) ?_ rfl rfl rfl).mpr
      (Or.inr ?_)
    · exact List.mem_singleton_self 1
    · unfold Settled
      cases hA
      decide +kernel

/-- A value's destructor panics in a reset: the value is gone and its bytes are still counted. -/
theorem destroyed_still_allocated : ∃ A, smallArena true 64 = some A ∧
    let w := run World.step (World.start A) [.request noMemory ⟨.value eightBytes,false⟩]
    let s := w.arena.reset (fun _ _ => true)
    Reached Honest w ∧ s.panic = some dropPanic ∧
      s.calls.map DropCall.bytes = [⟨4096,8⟩] ∧ s.arena.dropRegistry.len = 0 ∧
      s.arena.stats.bytesAllocated = 8 ∧
      (w.arena.reset quiet).arena.stats.bytesAllocated = 0 ∧
      Occupied s.arena 4096 ∧ ¬ Consistent (w.arena.reset quiet) s := by
  obtain ⟨A,hA⟩ : ∃ A, smallArena true 64 = some A := ⟨_,rfl⟩
  refine ⟨A,hA,?_,?_,?_,?_,?_,?_,?_,?_⟩
  · exact reached_small (by norm_num) hA _ ⟨⟨grants_noMemory _,trivial⟩,trivial⟩
  · cases hA
    decide +kernel
  · cases hA
    rfl
  · cases hA
    decide +kernel
  · cases hA
    decide +kernel
  · cases hA
    decide +kernel
  · refine ⟨0,?_,?_,?_⟩
    all_goals
      cases hA
      decide +kernel
  · intro hconsistent
    have hptr := (hconsistent.left (by cases hA; decide +kernel)).ptr_eq
    revert hptr
    cases hA
    decide +kernel

end FastArena.PanickingSweep
