import FastArena.ListBuffer

/-!
# Which checkpoints a rewind rejects

Any number of arenas side by side, whose checkpoints are given to one another. A
rewind compares the block index with the number of blocks and, in a release
build, nothing else. It rejects a foreign checkpoint only if that comparison
fails, and follows a stale one forward.
-/

set_option autoImplicit false

namespace FastArena.CheckpointOrigin
open FastArena.MachineWord FastArena.ArenaBlock FastArena.InlineStorage FastArena.DropTracking
  FastArena.ArenaCore FastArena.ArenaInvariant FastArena.RawRequest FastArena.ArenaSweep
  FastArena.ArenaRequests FastArena.LabelledRun FastArena.ArenaWorld FastArena.ListBuffer

variable {ι : Type} [DecidableEq ι]

/-- A call on one of the arenas; or a rewind of `i` to the checkpoint that `j` took at `stamp`. -/
inductive Move (ι : Type) where
  | own (i : ι) (op : Op)
  | crossed (i j : ι) (boom : ℕ → ℕ → Bool) (stamp : ℕ)

def step (ws : ι → World) : Move ι → ι → World
  | .own i op => Function.update ws i (ListBuffer.step (ws i) op)
  | .crossed i j boom stamp =>
    match (ws j).markAt stamp with
    | none => ws
    | some m => Function.update ws i
        { (ws i).tick with arena := ((ws i).arena.rewind boom m.cp).arena }

-- An accepted checkpoint that points past the end of its block is undefined behaviour, so no state
-- comes after it.
def Defined (ws : ι → World) : Move ι → Prop
  | .own i op => Honest (ws i) op
  | .crossed i j _ stamp => ∀ m, (ws j).markAt stamp = some m →
      m.cp.blockIdx < (ws i).arena.blocks.len → Recallable (ws i).arena.blocks m.cp

def Mixed (ws : ι → World) : Prop :=
  ∃ (arenas : ι → Arena) (moves : List (Move ι)),
    (∀ i, ∃ sys feature initialBytes, Grants sys (InlineVec.new : Blocks) ∧
      Arena.withCapacity sys feature initialBytes = some (arenas i)) ∧
    Along step Defined (fun i => World.start (arenas i)) moves ∧
    ws = run step (fun i => World.start (arenas i)) moves

def Rejects (boom : ℕ → ℕ → Bool) (A : Arena) (cp : Checkpoint) : Prop :=
  (A.rewind boom cp).panic ≠ none ∧ (A.rewind boom cp).arena = A

def StaysBack (boom : ℕ → ℕ → Bool) (A : Arena) (cp : Checkpoint) : Prop :=
  (A.rewind boom cp).panic ≠ none ∨ position (A.rewind boom cp).arena ≤ position A

def Bursts (boom : ℕ → ℕ → Bool) (target : ℕ) (A : Arena) : Prop :=
  ∃ k slot e, target ≤ k ∧ A.dropRegistry.entries[k]? = some slot ∧ e < slot.count ∧
    boom k e = true

theorem bursts_changes {boom : ℕ → ℕ → Bool} {A : Arena} {cp : Checkpoint}
    (h : Bursts boom cp.dropRegistryLen A) {B : Arena}
    (hB : B.dropRegistry = (A.dropRegistry.runDropsUntil boom cp.dropRegistryLen).2.1) : B ≠ A := by
  obtain ⟨k,slot,e,hk,hget,-⟩ := h
  obtain ⟨hlt,-⟩ := List.getElem?_eq_some_iff.mp hget
  intro heq
  have hentries := congrArg DropRegistry.entries hB
  rw [heq, DropRegistry.entries_runDropsUntil] at hentries
  have hlen := congrArg List.length hentries
  rw [List.length_take] at hlen
  omega

theorem rejects_index (boom : ℕ → ℕ → Bool) (A : Arena) (cp : Checkpoint) :
    Rejects boom A cp ↔ A.blocks.len ≤ cp.blockIdx := by
  unfold Rejects Arena.rewind
  by_cases hidx : cp.blockIdx < A.blocks.len
  · rw [if_pos hidx]
    refine iff_of_false ?_ (Nat.not_le.mpr hidx)
    dsimp only
    by_cases hburst : (A.dropRegistry.runDropsUntil boom cp.dropRegistryLen).2.2 = true
    · rw [if_pos hburst]
      rintro ⟨-,heq⟩
      exact bursts_changes ((A.dropRegistry.panicked_runDropsUntil _ _).mp hburst) rfl heq
    · rw [if_neg hburst]
      exact fun hh => hh.1 rfl
  · rw [if_neg hidx]
    exact iff_of_true ⟨nofun,rfl⟩ (Nat.not_lt.mp hidx)

theorem staysBack_place {A : Arena} (h : Wf (mended A)) (boom : ℕ → ℕ → Bool) {cp : Checkpoint}
    (hcp : Recallable A.blocks cp) :
    StaysBack boom A cp ↔ Bursts boom cp.dropRegistryLen A ∨ place cp ≤ position A := by
  have hburst : Bursts boom cp.dropRegistryLen A ↔
      (A.dropRegistry.runDropsUntil boom cp.dropRegistryLen).2.2 = true :=
    (A.dropRegistry.panicked_runDropsUntil _ _).symm
  have hsame : (A.rewind boom cp).panic = (Arena.rewind boom (mended A) cp).panic ∧
      position (A.rewind boom cp).arena = position (Arena.rewind boom (mended A) cp).arena := by
    have harena : (Arena.rewind boom (mended A) cp).arena =
        { (A.rewind boom cp).arena with bytesReserved := totalCapacity A.blocks } :=
      rewind_reserved boom cp _
    rw [harena]
    have hidx : cp.blockIdx < (mended A).blocks.len := hcp.idx_lt
    refine ⟨?_,rfl⟩
    unfold Arena.rewind
    rw [if_pos hcp.idx_lt, if_pos hidx]
    dsimp only [mended]
    split <;> rfl
  obtain ⟨-,-,hcases⟩ := rewind_cases boom h hcp
  unfold StaysBack
  rw [hburst, hsame.1, hsame.2]
  rcases hcases with ⟨hpanic,hyes,-⟩ | ⟨hpanic,hno,hrewound⟩
  · refine iff_of_true (Or.inl ?_) (Or.inl hyes)
    rw [hpanic]
    nofun
  · have hquiet : (A.dropRegistry.runDropsUntil boom cp.dropRegistryLen).2.2 = false := hno
    rw [hpanic, rewound_position hrewound, hquiet]
    simp

section runs
variable {ws : ι → World}

theorem sane_crossed {w : World} (h : Sane w) (boom : ℕ → ℕ → Bool) {cp : Checkpoint}
    (hcp : cp.blockIdx < w.arena.blocks.len → Recallable w.arena.blocks cp) :
    Sane { w.tick with arena := (w.arena.rewind boom cp).arena } := by
  by_cases hidx : cp.blockIdx < w.arena.blocks.len
  · obtain ⟨hwf,hgrown⟩ := rewind_sane h.wf boom (hcp hidx)
    exact sane_of h hwf hgrown rfl (fun _ hf => hf)
  · obtain ⟨-,hsame⟩ := (rejects_index boom w.arena cp).mpr (Nat.not_lt.mp hidx)
    rw [hsame]
    exact sane_tick h

theorem sane_update (h : ∀ i, Sane (ws i)) (i : ι) {w : World} (hw : Sane w) (j : ι) :
    Sane (Function.update ws i w j) := by
  by_cases hj : j = i
  · subst hj
    rwa [Function.update_self]
  · rw [Function.update_of_ne hj]
    exact h j

theorem sane_move (h : ∀ i, Sane (ws i)) {move : Move ι} (hmove : Defined ws move) (i : ι) :
    Sane (step ws move i) := by
  cases move with
  | own k op => exact sane_update h k (sane_step (h k) hmove) i
  | crossed k j boom stamp =>
    unfold step
    dsimp only
    cases hfound : (ws j).markAt stamp with
    | none => exact h i
    | some m => exact sane_update h k (sane_crossed (h k) boom (hmove m hfound)) i

theorem sane_mixed (h : Mixed ws) (i : ι) : Sane (ws i) := by
  obtain ⟨arenas,moves,hnew,halong,rfl⟩ := h
  refine run_invariant step Defined (fun ws => ∀ i, Sane (ws i))
    (fun _ _ hws hmove => sane_move hws hmove) _ moves ?_ halong i
  intro j
  obtain ⟨sys,feature,initialBytes,hs,hA⟩ := hnew j
  exact sane_start (wf_withCapacity hs hA).1

end runs

def allocate (n : ℕ) : Op := .request noMemory ⟨.raw n 8,false⟩

def twoMarks : List (Move Bool) :=
  [.own false (allocate 16),.own false .checkpoint,.own false (.reset quiet),
    .own true (allocate 32),.own true .checkpoint]

theorem mixed_small {A : Arena} (hA : smallArena false 64 = some A) {moves : List (Move Bool)}
    (h : Along step Defined (fun _ => World.start A) moves) :
    Mixed (run step (fun _ : Bool => World.start A) moves) :=
  ⟨fun _ => A,moves,fun _ => ⟨_,false,64,grants_small (by norm_num),hA⟩,h,rfl⟩

theorem twoMarks_defined {A : Arena} :
    Along step Defined (fun _ => World.start A) twoMarks := by
  have hhonest : ∀ (w : World) (n : ℕ), n < 2^64 → Honest w (allocate n) :=
    fun w n hn => ⟨grants_noMemory _,hn⟩
  exact ⟨hhonest _ _ (by norm_num),trivial,trivial,hhonest _ _ (by norm_num),trivial,trivial⟩

section marks
variable {A : Arena}

theorem twoMarks_other (hA : smallArena false 64 = some A) : (⟨2,⟨0,32,32,0⟩⟩ : Mark) ∈
    (run step (fun _ : Bool => World.start A) twoMarks true).marks := by
  cases hA
  exact List.mem_singleton.mpr rfl

theorem twoMarks_own (hA : smallArena false 64 = some A) : (⟨2,⟨0,16,16,0⟩⟩ : Mark) ∈
    (run step (fun _ : Bool => World.start A) twoMarks false).marks := by
  cases hA
  exact List.mem_singleton.mpr rfl

end marks

/-- Another arena's checkpoint is rejected exactly if it names a block this one does not have; one
of its own, still valid or not, keeps it back exactly if it lies back or a destructor stops the
rewind. -/
theorem rejects_iff {ws : ι → World} (h : Mixed ws) (boom : ℕ → ℕ → Bool) (i : ι) :
    (∀ j, j ≠ i → ∀ m ∈ (ws j).marks,
      (Rejects boom (ws i).arena m.cp ↔ (ws i).arena.blocks.len ≤ m.cp.blockIdx)) ∧
    (∀ m ∈ (ws i).marks, (StaysBack boom (ws i).arena m.cp ↔
      Bursts boom m.cp.dropRegistryLen (ws i).arena ∨ place m.cp ≤ position (ws i).arena)) := by
  have hsane := sane_mixed h i
  constructor
  · exact fun _ _ m _ => rejects_index boom (ws i).arena m.cp
  · exact fun m hm => staysBack_place hsane.wf boom (hsane.recallable m hm)

theorem rejects_iff_two : ∃ (ws : Bool → World) (m m' : Mark), m ∈ (ws true).marks ∧
    m' ∈ (ws false).marks ∧
    (Rejects quiet (ws false).arena m.cp ↔ (ws false).arena.blocks.len ≤ m.cp.blockIdx) ∧
    (StaysBack quiet (ws false).arena m'.cp ↔ Bursts quiet m'.cp.dropRegistryLen (ws false).arena ∨
      place m'.cp ≤ position (ws false).arena) := by
  obtain ⟨A,hA⟩ : ∃ A, smallArena false 64 = some A := Option.isSome_iff_exists.mp rfl
  have hmixed := mixed_small hA twoMarks_defined
  refine ⟨_,_,_,twoMarks_other hA,twoMarks_own hA,?_,?_⟩
  · exact (rejects_iff hmixed quiet false).1 true nofun _ (twoMarks_other hA)
  · exact (rejects_iff hmixed quiet false).2 _ (twoMarks_own hA)

/-- The other arena's checkpoint is accepted, and the one from before the reset leads forward. -/
theorem foreign_accepted : ∃ ws : Bool → World, Mixed ws ∧
    (∃ m ∈ (ws true).marks, ¬ Rejects quiet (ws false).arena m.cp) ∧
    ∃ m ∈ (ws false).marks, m.stamp ∉ (ws false).valid ∧
      ¬ StaysBack quiet (ws false).arena m.cp := by
  obtain ⟨A,hA⟩ : ∃ A, smallArena false 64 = some A := Option.isSome_iff_exists.mp rfl
  refine ⟨_,mixed_small hA twoMarks_defined,⟨_,twoMarks_other hA,?_⟩,_,twoMarks_own hA,?_,?_⟩
  · rw [rejects_index]
    cases hA
    decide +kernel
  · cases hA
    decide +kernel
  · unfold StaysBack
    cases hA
    decide +kernel

end FastArena.CheckpointOrigin
