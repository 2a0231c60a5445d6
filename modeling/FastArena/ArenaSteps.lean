import FastArena.ArenaWorld

/-!
# What one call can do to a world

One inversion lemma lists the ways a world can change, over all the calls
there are. Invariants of runs are proved from it case by case. The first of
them: checkpoints that are still valid lie in the order they were taken, below
the present position.
-/

set_option autoImplicit false

namespace FastArena.ArenaSteps
open FastArena.MachineWord FastArena.ByteSpan FastArena.ArenaBlock FastArena.InlineStorage
  FastArena.DropTracking FastArena.ArenaCore FastArena.ArenaInvariant FastArena.RawRequest
  FastArena.ArenaSweep FastArena.ArenaRequests FastArena.ArenaTransaction FastArena.LabelledRun
  FastArena.ArenaWorld

def Targets (good : ℕ → Prop) (w : World) : Op → Prop
  | .rewind _ stamp => good stamp
  | .rollback _ => ∀ f ∈ w.opened.head?, good f.stamp
  | _ => True

def oracle : Op → ℕ → ℕ → Bool
  | .rewind boom _ => boom
  | .reset boom => boom
  | .rollback boom => boom
  | _ => quiet

/-- Rewinds and rollbacks go to checkpoints that no reset and no rewind to an earlier checkpoint
has invalidated. -/
def StillValid (w : World) (op : Op) : Prop := Targets (· ∈ w.valid) w op

def Permitted (w : World) (op : Op) : Prop := Honest w op ∧ StillValid w op

def Kin (opened opened' : List Open) : Prop :=
  ∀ f ∈ opened', ∃ g ∈ opened, f.stamp = g.stamp ∧ f.start = g.start ∧
    ∃ limit, f.txn = { g.txn with limit := limit }

theorem kin_refl (opened : List Open) : Kin opened opened :=
  fun f hf => ⟨f,hf,rfl,rfl,f.txn.limit,rfl⟩

theorem kin_tail {f : Open} {rest opened : List Open} (h : opened = f::rest) : Kin opened rest := by
  subst h
  exact fun g hg => kin_refl _ g (List.mem_cons_of_mem _ hg)

def atDepth (w : World) (n : ℕ) : World :=
  { w with arena := { w.arena with txnDepth := n } }

/-- The changes a call can make. Depth and open guards aside, a call serves a request, takes a
checkpoint, rewinds, resets, or does nothing. -/
inductive Stepped (w : World) (op : Op) : World → Prop where
  | served {sys : SystemAlloc} {r : Request} {o : Outcome}
      (hop : op = .request sys r ∨ op = .guarded sys r ∧ ∃ f rest, w.opened = f::rest ∧
        f.txn.budgetOk w.arena (payload r.kind) = true)
      (ho : o = r.serve sys w.arena) (h : Served sys w.arena r o) : Stepped w op (w.take o)
  | declined {ret : Ret} {lost : ℕ} (hret : ∀ p, ret ≠ .ptr p) :
      Stepped w op (w.take (answer w.arena ret lost))
  | ticked {n : ℕ} {opened : List Open} (hkin : Kin w.opened opened) :
      Stepped w op { atDepth w.tick n with opened := opened }
  | noted {n : ℕ} {opened : List Open} (hopened : ∀ f ∈ opened, f ∈ w.opened ∨
      f = ⟨(Transaction.new w.arena).1,w.clock,w.arena⟩) :
      Stepped w op { atDepth (w.note w.arena.checkpoint) n with opened := opened }
  | rewound {boom : ℕ → ℕ → Bool} {n : ℕ} {m : Mark} {opened : List Open} (hm : m ∈ w.marks)
      (htarget : ∀ good, Targets good w op → good m.stamp)
      (hboom : op = .rewind boom m.stamp ∨ op = .rollback boom) (hkin : Kin w.opened opened) :
      Stepped w op { (atDepth w n).sweep ((atDepth w n).arena.rewind boom m.cp) m.stamp with
        opened := opened }
  | reset {boom : ℕ → ℕ → Bool} (hboom : op = .reset boom) :
      Stepped w op (w.sweep (w.arena.reset boom) 0)

theorem stepped {w : World} (h : Inv w) {op : Op} (hop : Honest w op) :
    Stepped w op (w.step op) := by
  cases op with
  | request sys r => exact .served (Or.inl rfl) rfl (serve_served h.wf hop.1 hop.2)
  | guarded sys r =>
    cases hopened : w.opened with
    | nil =>
      simp only [World.step, hopened]
      exact .ticked (n := w.arena.txnDepth) (kin_refl _)
    | cons f rest =>
      simp only [World.step, hopened]
      rcases txn_serve f.txn sys w.arena r with ⟨⟨-,hok⟩,heq⟩ | ⟨-,ret,hret,lost,heq⟩
      · rw [heq]
        exact .served (Or.inr ⟨rfl,f,rest,hopened,hok⟩) rfl (serve_served h.wf hop.1 hop.2)
      · rw [heq]
        exact .declined hret
  | checkpoint => exact .noted (n := w.arena.txnDepth) (fun f hf => Or.inl hf)
  | rewind boom stamp =>
    cases hfound : w.markAt stamp with
    | none =>
      simp only [World.step, hfound]
      exact .ticked (n := w.arena.txnDepth) (kin_refl _)
    | some m =>
      simp only [World.step, hfound]
      have hstamp : m.stamp = stamp := by simpa using List.find?_some hfound
      subst hstamp
      exact .rewound (n := w.arena.txnDepth) (List.mem_of_find?_eq_some hfound) (fun _ hgood => hgood)
        (Or.inl rfl) (kin_refl _)
  | reset boom => exact .reset rfl
  | begin =>
    apply Stepped.noted
    intro f hf
    rcases List.mem_cons.mp hf with rfl | hold
    · exact Or.inr rfl
    · exact Or.inl hold
  | commit =>
    cases hopened : w.opened with
    | nil =>
      simp only [World.step, hopened]
      exact .ticked (n := w.arena.txnDepth) (kin_refl _)
    | cons f rest =>
      simp only [World.step, hopened]
      exact .ticked (kin_tail hopened)
  | rollback boom =>
    cases hopened : w.opened with
    | nil =>
      simp only [World.step, hopened]
      exact .ticked (n := w.arena.txnDepth) (kin_refl _)
    | cons f rest =>
      have hf : f ∈ w.opened := hopened ▸ List.mem_cons_self
      simp only [World.step, hopened]
      rw [drop_eq h hf boom]
      exact .rewound (n := w.arena.txnDepth-1) (h.opened f hf).1
        (fun _ hgood => hgood f (by rw [hopened]; rfl)) (Or.inr rfl) (kin_tail hopened)
  | setLimit bytes =>
    cases hopened : w.opened with
    | nil =>
      simp only [World.step, hopened]
      exact .ticked (n := w.arena.txnDepth) (kin_refl _)
    | cons f rest =>
      simp only [World.step, hopened]
      apply Stepped.ticked (n := w.arena.txnDepth)
      intro g hg
      rcases List.mem_cons.mp hg with rfl | hold
      · exact ⟨f,hopened ▸ List.mem_cons_self,rfl,rfl,some bytes,rfl⟩
      · exact kin_tail hopened g hold

/-- Valid checkpoints are stacked: in the order they were taken, below the position. -/
structure Stacked (w : World) : Prop where
  below : ∀ m ∈ w.marks, m.stamp ∈ w.valid → place m.cp ≤ position w.arena
  order : ∀ m ∈ w.marks, ∀ k ∈ w.marks, m.stamp ∈ w.valid → k.stamp ∈ w.valid →
    m.stamp ≤ k.stamp → place m.cp ≤ place k.cp
  valid_pos : ∀ s ∈ w.valid, 0 < s
  clock_pos : 0 < w.clock

theorem stacked_advance {w w' : World} (h : Stacked w) (hmarks : w'.marks = w.marks)
    (hvalid : w'.valid = w.valid) (hclock : w'.clock = w.clock+1)
    (hpos : position w.arena ≤ position w'.arena) : Stacked w' where
  below := by
    intro m hm hv
    rw [hmarks] at hm
    rw [hvalid] at hv
    exact (h.below m hm hv).trans hpos
  order := by
    rw [hmarks, hvalid]
    exact h.order
  valid_pos := by
    rw [hvalid]
    exact h.valid_pos
  clock_pos := by omega

theorem served_position {sys : SystemAlloc} {A : Arena} {r : Request} {o : Outcome}
    (h : Served sys A r o) : position A ≤ position o.arena := by
  cases h with
  | carved _ _ _ hcarved _ hfills =>
    obtain ⟨registry,harena,-,-⟩ := hfills.arena_eq
    rw [position_carved hcarved harena]
    apply hcarved.above.trans
    rw [Prod.Lex.toLex_le_toLex]
    exact Or.inr ⟨rfl,Nat.le_add_right _ _⟩
  | failed _ _ _ _ hunmoved =>
    exact le_of_eq (position_eq hunmoved.current_eq hunmoved.base_eq hunmoved.ptr_eq).symm
  | answered _ => exact le_refl _

theorem stacked_note {w w' : World} (hinv : Inv w) (h : Stacked w)
    (hmarks : w'.marks = ⟨w.clock,w.arena.checkpoint⟩ :: w.marks)
    (hvalid : w'.valid = w.clock :: w.valid) (hclock : w'.clock = w.clock+1)
    (hpos : position w'.arena = position w.arena) : Stacked w' := by
  have hpast : ∀ m ∈ w.marks, m.stamp < w.clock := fun m hm =>
    hinv.sound.marks_past m.spot (List.mem_map_of_mem hm)
  have hold : ∀ m ∈ w.marks, m.stamp ∈ w'.valid → m.stamp ∈ w.valid := by
    intro m hm hv
    rw [hvalid] at hv
    rcases List.mem_cons.mp hv with heq | hv
    · exact absurd heq (Nat.ne_of_lt (hpast m hm))
    · exact hv
  refine ⟨?_,?_,?_,by omega⟩
  · intro m hm hv
    rw [hmarks] at hm
    rw [hpos]
    rcases List.mem_cons.mp hm with rfl | hm
    · exact le_refl _
    · exact h.below m hm (hold m hm hv)
  · intro m hm k hk hmv hkv hle
    rw [hmarks] at hm hk
    rcases List.mem_cons.mp hm with rfl | hm
    · rcases List.mem_cons.mp hk with rfl | hk
      · exact le_refl _
      · exact absurd (hpast k hk) (Nat.not_lt.mpr hle)
    · rcases List.mem_cons.mp hk with rfl | hk
      · exact h.below m hm (hold m hm hmv)
      · exact h.order m hm k hk (hold m hm hmv) (hold k hk hkv) hle
  · intro s hs
    rw [hvalid] at hs
    rcases List.mem_cons.mp hs with rfl | hs
    · exact h.clock_pos
    · exact h.valid_pos s hs

theorem mem_valid_sweep {w : World} {s : Swept} {since k : ℕ} (hk : k ∈ (w.sweep s since).valid) :
    k ∈ w.valid ∧ k ≤ since := by
  obtain ⟨hv,hle⟩ := List.mem_filter.mp hk
  exact ⟨hv,by simpa using hle⟩

/-- Rewinding to a valid checkpoint keeps valid those taken no later, and they lie below it. -/
theorem stacked_rewind {w : World} (hinv : Inv w) (h : Stacked w) (boom : ℕ → ℕ → Bool) {m : Mark}
    (hm : m ∈ w.marks) (hmv : m.stamp ∈ w.valid) :
    Stacked (w.sweep (w.arena.rewind boom m.cp) m.stamp) := by
  refine ⟨?_,?_,?_,Nat.succ_pos _⟩
  · intro k hk hkv
    obtain ⟨hv,hle⟩ := mem_valid_sweep hkv
    rcases (rewind_cases boom hinv.wf (hinv.recallable m hm)).2.2 with
      ⟨-,-,harena⟩ | ⟨-,-,hrewound⟩
    · have hpos : position (w.arena.rewind boom m.cp).arena = position w.arena := by
        rw [harena]
        rfl
      exact (h.below k hk hv).trans (le_of_eq hpos.symm)
    · exact (h.order k hk m hm hv hmv hle).trans (le_of_eq (rewound_position hrewound).symm)
  · intro k hk l hl hkv hlv hle
    exact h.order k hk l hl (mem_valid_sweep hkv).1 (mem_valid_sweep hlv).1 hle
  · exact fun s hs => h.valid_pos s (mem_valid_sweep hs).1

theorem stacked_reset {w : World} (h : Stacked w) (s : Swept) : Stacked (w.sweep s 0) := by
  have hnone : ∀ k, k ∉ (w.sweep s 0).valid := by
    intro k hk
    obtain ⟨hv,hle⟩ := mem_valid_sweep hk
    exact absurd (h.valid_pos k hv) (Nat.not_lt.mpr hle)
  exact ⟨fun m _ hv => absurd hv (hnone _),fun m _ _ _ hv => absurd hv (hnone _),
    fun k hk => absurd hk (hnone k),Nat.succ_pos _⟩

theorem stacked_depth {w : World} (h : Stacked w) (n : ℕ) : Stacked (atDepth w n) :=
  ⟨h.below,h.order,h.valid_pos,h.clock_pos⟩

theorem stacked_step {w : World} (hinv : Inv w) (h : Stacked w) {op : Op} (hop : Honest w op)
    (hv : StillValid w op) : Stacked (w.step op) := by
  have hstep := stepped hinv hop
  generalize w.step op = w' at hstep
  cases hstep with
  | served _ _ hserved => exact stacked_advance h rfl rfl rfl (served_position hserved)
  | declined _ => exact stacked_advance h rfl rfl rfl (le_refl _)
  | ticked _ => exact stacked_advance h rfl rfl rfl (le_refl _)
  | noted _ => exact stacked_note hinv h rfl rfl rfl rfl
  | @rewound boom n m opened hm htarget _ _ =>
    have hs := stacked_rewind (inv_depth hinv n) (stacked_depth h n) boom hm (htarget _ hv)
    exact ⟨hs.below,hs.order,hs.valid_pos,hs.clock_pos⟩
  | reset _ => exact stacked_reset h _

theorem stacked_start (A : Arena) : Stacked (World.start A) :=
  ⟨nofun,nofun,nofun,Nat.one_pos⟩

section arenas
variable {A : Arena}

theorem wf_served {A : Arena} (h : Wf A) {sys : SystemAlloc} (hs : Grants sys A.blocks)
    {r : Request} (hr : r.Typed) :
    Wf (r.serve sys A).arena ∧ Grown A.blocks (r.serve sys A).arena.blocks := by
  have hserved := serve_served h hs hr
  generalize r.serve sys A = o at hserved
  cases hserved with
  | carved _ _ _ hcarved _ hfills =>
    obtain ⟨registry,harena,-,-⟩ := hfills.arena_eq
    rw [harena]
    exact ⟨wf_withRegistry hcarved.wf registry,hcarved.grown⟩
  | failed _ _ _ _ hunmoved => exact ⟨hunmoved.wf,hunmoved.grown⟩
  | answered _ => exact ⟨h,grown_refl _⟩

theorem wf_guarded (h : Wf A) {sys : SystemAlloc} (hs : Grants sys A.blocks) {r : Request}
    (hr : r.Typed) (t : Transaction) :
    Wf (t.serve sys A r).arena ∧ Grown A.blocks (t.serve sys A r).arena.blocks := by
  rcases txn_serve t sys A r with ⟨-,heq⟩ | ⟨-,ret,-,lost,heq⟩
  · rw [heq]
    exact wf_served h hs hr
  · rw [heq]
    exact ⟨h,grown_refl _⟩

theorem wf_rewind (h : Wf A) (boom : ℕ → ℕ → Bool) {cp : Checkpoint}
    (hcp : Recallable A.blocks cp) :
    Wf (A.rewind boom cp).arena ∧ Grown A.blocks (A.rewind boom cp).arena.blocks := by
  obtain ⟨-,-,⟨-,-,harena⟩ | ⟨-,-,hrewound⟩⟩ := rewind_cases boom h hcp
  · rw [harena]
    exact ⟨wf_withRegistry h _,grown_refl _⟩
  · exact ⟨hrewound.wf,hrewound.grown⟩

theorem wf_reset (h : Wf A) (boom : ℕ → ℕ → Bool) :
    Wf (A.reset boom).arena ∧ Grown A.blocks (A.reset boom).arena.blocks := by
  obtain ⟨-,-,⟨-,-,harena⟩ | ⟨-,-,hemptied⟩⟩ := reset_cases boom h
  · rw [harena]
    exact ⟨wf_withRegistry h _,grown_refl _⟩
  · exact ⟨hemptied.wf,hemptied.grown⟩

end arenas

def Sweeping : Op → Prop
  | .request _ _ => False
  | .guarded _ _ => False
  | _ => True

structure Lasting (law : Arena → Prop) : Prop where
  depth : ∀ {A}, law A → ∀ n, law { A with txnDepth := n }
  checkpoint : ∀ {A}, law A → Recallable A.blocks A.checkpoint
  rewind : ∀ {A}, law A → ∀ boom cp, Recallable A.blocks cp →
    law (A.rewind boom cp).arena ∧ Grown A.blocks (A.rewind boom cp).arena.blocks
  reset : ∀ {A}, law A → ∀ boom,
    law (A.reset boom).arena ∧ Grown A.blocks (A.reset boom).arena.blocks

structure Steady (law : Arena → Prop) (w : World) : Prop where
  lawful : law w.arena
  recallable : ∀ m ∈ w.marks, Recallable w.arena.blocks m.cp
  opened : ∀ f ∈ w.opened, ⟨f.stamp,f.txn.checkpoint⟩ ∈ w.marks ∧ f.txn.committed = false

theorem lasting_wf : Lasting Wf :=
  ⟨wf_txnDepth,recallable_checkpoint,fun h boom _ hcp => wf_rewind h boom hcp,wf_reset⟩

section steady
variable {law : Arena → Prop} {w : World}

theorem steady_of {w' : World} (h : Steady law w) (hlaw : law w'.arena)
    (hgrown : Grown w.arena.blocks w'.arena.blocks) (hmarks : w'.marks = w.marks)
    (hopened : ∀ f ∈ w'.opened, f ∈ w.opened) : Steady law w' where
  lawful := hlaw
  recallable := by
    rw [hmarks]
    exact fun m hm => recallable_grown (h.recallable m hm) hgrown
  opened := by
    rw [hmarks]
    exact fun f hf => h.opened f (hopened f hf)

theorem steady_tick (h : Steady law w) : Steady law w.tick := ⟨h.lawful,h.recallable,h.opened⟩

theorem steady_note (hlaw : Lasting law) (h : Steady law w) :
    Steady law (w.note w.arena.checkpoint) where
  lawful := h.lawful
  recallable := by
    intro m hm
    rcases List.mem_cons.mp hm with rfl | hold
    · exact hlaw.checkpoint h.lawful
    · exact h.recallable m hold
  opened := fun f hf => ⟨List.mem_cons_of_mem _ (h.opened f hf).1,(h.opened f hf).2⟩

theorem steady_begin (hlaw : Lasting law) (h : Steady law w) : Steady law (w.step .begin) where
  lawful := hlaw.depth h.lawful _
  recallable := (steady_note hlaw h).recallable
  opened := by
    intro f hf
    rcases List.mem_cons.mp hf with rfl | hold
    · exact ⟨List.mem_cons_self,rfl⟩
    · exact (steady_note hlaw h).opened f hold

theorem steady_rollback (hlaw : Lasting law) (h : Steady law w) {f : Open} {rest : List Open}
    (hopened : w.opened = f::rest) (boom : ℕ → ℕ → Bool) :
    Steady law (w.step (.rollback boom)) := by
  have hf : f ∈ w.opened := hopened ▸ List.mem_cons_self
  obtain ⟨hmark,hopen⟩ := h.opened f hf
  have hdrop : f.txn.drop boom w.arena = Arena.rewind boom
      { w.arena with txnDepth := w.arena.txnDepth-1 } f.txn.checkpoint := by
    rw [Transaction.drop, hopen]
    rfl
  obtain ⟨hrewound,hgrown⟩ := hlaw.rewind (hlaw.depth h.lawful (w.arena.txnDepth-1)) boom
    f.txn.checkpoint (h.recallable _ hmark)
  rw [← hdrop] at hrewound hgrown
  simp only [World.step, hopened]
  exact steady_of h hrewound hgrown rfl (fun g hg => hopened ▸ List.mem_cons_of_mem f hg)

theorem steady_sweeping (hlaw : Lasting law) (h : Steady law w) {op : Op} (hop : Sweeping op) :
    Steady law (w.step op) := by
  cases op with
  | request sys r => exact hop.elim
  | guarded sys r => exact hop.elim
  | checkpoint => exact steady_note hlaw h
  | rewind boom stamp =>
    cases hfound : w.markAt stamp with
    | none =>
      simp only [World.step, hfound]
      exact steady_tick h
    | some m =>
      obtain ⟨hrewound,hgrown⟩ := hlaw.rewind h.lawful boom m.cp
        (h.recallable m (List.mem_of_find?_eq_some hfound))
      simp only [World.step, hfound]
      exact steady_of h hrewound hgrown rfl (fun _ hf => hf)
  | reset boom =>
    obtain ⟨hreset,hgrown⟩ := hlaw.reset h.lawful boom
    exact steady_of h hreset hgrown rfl (fun _ hf => hf)
  | begin => exact steady_begin hlaw h
  | commit =>
    cases hopened : w.opened with
    | nil =>
      simp only [World.step, hopened]
      exact steady_tick h
    | cons f rest =>
      simp only [World.step, hopened]
      exact ⟨hlaw.depth h.lawful _,h.recallable,
        fun g hg => h.opened g (hopened ▸ List.mem_cons_of_mem f hg)⟩
  | rollback boom =>
    cases hopened : w.opened with
    | nil =>
      simp only [World.step, hopened]
      exact steady_tick h
    | cons f rest => exact steady_rollback hlaw h hopened boom
  | setLimit bytes =>
    cases hopened : w.opened with
    | nil =>
      simp only [World.step, hopened]
      exact steady_tick h
    | cons f rest =>
      simp only [World.step, hopened]
      refine ⟨h.lawful,h.recallable,?_⟩
      intro g hg
      rcases List.mem_cons.mp hg with rfl | hold
      · exact h.opened f (hopened ▸ List.mem_cons_self)
      · exact h.opened g (hopened ▸ List.mem_cons_of_mem f hold)

theorem steady_step (h : Steady Wf w) {op : Op} (hop : Honest w op) : Steady Wf (w.step op) := by
  cases op with
  | request sys r =>
    obtain ⟨hwf,hgrown⟩ := wf_served h.lawful hop.1 hop.2
    exact steady_of h hwf hgrown rfl (fun _ hf => hf)
  | guarded sys r =>
    cases hopened : w.opened with
    | nil =>
      simp only [World.step, hopened]
      exact steady_tick h
    | cons f rest =>
      obtain ⟨hwf,hgrown⟩ := wf_guarded h.lawful hop.1 hop.2 f.txn
      simp only [World.step, hopened]
      exact steady_of h hwf hgrown rfl (fun _ hg => hg)
  | _ => exact steady_sweeping lasting_wf h trivial

end steady

end FastArena.ArenaSteps
