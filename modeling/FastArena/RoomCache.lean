import FastArena.ArenaSteps

/-!
# The shortcut past the block scan

The arena remembers the most room in a block after the current one, and which
block that is, and does not scan when a request needs more. Moving forward
keeps the number right. Moving back may not: the remembered block is kept
although a larger one has come back into the candidates.
-/

set_option autoImplicit false

namespace FastArena.RoomCache
open FastArena.MachineWord FastArena.ByteSpan FastArena.ArenaBlock FastArena.InlineStorage
  FastArena.DropTracking FastArena.ArenaCore FastArena.ArenaInvariant FastArena.RawRequest
  FastArena.ArenaSweep FastArena.ArenaRequests FastArena.ArenaTransaction FastArena.LabelledRun
  FastArena.ArenaWorld FastArena.ArenaSteps

/-- The loop returns the largest value met, and where it was met unless none exceeds the first. -/
theorem largestFrom_spec (room : ℕ → ℕ) (n i maxRem maxIdx : ℕ) :
    (largestFrom room n i maxRem maxIdx).1 = max maxRem ((Finset.Ico i (i+n)).sup room) ∧
      (largestFrom room n i maxRem maxIdx = (maxRem,maxIdx) ∨
        i ≤ (largestFrom room n i maxRem maxIdx).2 ∧
        (largestFrom room n i maxRem maxIdx).2 < i+n ∧
        room (largestFrom room n i maxRem maxIdx).2 = (largestFrom room n i maxRem maxIdx).1) := by
  induction n generalizing i maxRem maxIdx with
  | zero => simp [largestFrom]
  | succ n ih =>
    have hsup : (Finset.Ico i (i+(n+1))).sup room =
        max (room i) ((Finset.Ico (i+1) (i+1+n)).sup room) := by
      rw [← Finset.insert_Ico_add_one_left_eq_Ico (show i < i+(n+1) by omega), Finset.sup_insert,
        show i+(n+1) = i+1+n by omega]
    rw [hsup]
    unfold largestFrom
    by_cases hmore : room i > maxRem
    · simp only [hmore, if_true]
      obtain ⟨hmax,hcases⟩ := ih (i+1) (room i) i
      refine ⟨by rw [hmax]; omega,Or.inr ?_⟩
      rcases hcases with heq | ⟨hlo,hhi,hat⟩
      · rw [heq]
        exact ⟨le_refl i,by dsimp only; omega,rfl⟩
      · exact ⟨by omega,by omega,hat⟩
    · simp only [hmore, if_false]
      obtain ⟨hmax,hcases⟩ := ih (i+1) maxRem maxIdx
      refine ⟨by rw [hmax]; omega,?_⟩
      rcases hcases with heq | ⟨hlo,hhi,hat⟩
      · exact Or.inl heq
      · exact Or.inr ⟨by omega,by omega,hat⟩

def room (b : Block) : ℕ := b.capacity - b.offset

def roomAfter (blocks : Blocks) (i : ℕ) : ℕ :=
  (Finset.Ioo i blocks.len).sup (fun j => room (blocks.get j))

theorem room_le_roomAfter {blocks : Blocks} {i j : ℕ} (hi : i < j) (hj : j < blocks.len) :
    room (blocks.get j) ≤ roomAfter blocks i :=
  Finset.le_sup (f := fun j => room (blocks.get j)) (Finset.mem_Ioo.mpr ⟨hi,hj⟩)

theorem roomAfter_le {blocks : Blocks} {i n : ℕ}
    (h : ∀ j < blocks.len, i < j → room (blocks.get j) ≤ n) : roomAfter blocks i ≤ n := by
  apply Finset.sup_le
  intro j hj
  obtain ⟨hlo,hhi⟩ := Finset.mem_Ioo.mp hj
  exact h j hhi hlo

theorem roomAfter_congr {blocks blocks' : Blocks} {i : ℕ} (hlen : blocks'.len = blocks.len)
    (h : ∀ j < blocks.len, i < j → room (blocks'.get j) = room (blocks.get j)) :
    roomAfter blocks' i = roomAfter blocks i := by
  unfold roomAfter
  rw [hlen]
  apply Finset.sup_congr rfl
  intro j hj
  obtain ⟨hlo,hhi⟩ := Finset.mem_Ioo.mp hj
  exact h j hhi hlo

theorem largestFrom_blocks {blocks : Blocks} (f : ℕ → ℕ) {i : ℕ}
    (hf : ∀ j < blocks.len, i < j → f j = room (blocks.get j)) (hi : i < blocks.len) :
    (largestFrom f (blocks.len - (i+1)) (i+1) 0 i).1 = roomAfter blocks i ∧
      (i < (largestFrom f (blocks.len - (i+1)) (i+1) 0 i).2 →
        room (blocks.get (largestFrom f (blocks.len - (i+1)) (i+1) 0 i).2) =
          roomAfter blocks i) := by
  obtain ⟨hmax,hcases⟩ := largestFrom_spec f (blocks.len - (i+1)) (i+1) 0 i
  have hsup : (Finset.Ico (i+1) (i+1+(blocks.len - (i+1)))).sup f = roomAfter blocks i := by
    rw [show i+1+(blocks.len - (i+1)) = blocks.len by omega]
    apply Finset.sup_congr
    · ext j
      simp only [Finset.mem_Ico, Finset.mem_Ioo]
      omega
    · intro j hj
      obtain ⟨hlo,hhi⟩ := Finset.mem_Ioo.mp hj
      exact hf j hhi hlo
  rw [hsup, Nat.zero_max] at hmax
  refine ⟨hmax,fun hlater => ?_⟩
  rcases hcases with heq | ⟨hlo,hhi,hat⟩
  · rw [heq] at hlater
    exact absurd hlater (Nat.lt_irrefl i)
  · rw [← hf _ (by omega) hlater, hat, hmax]

theorem wsub_room {b : Block} (h : Placed b) : wsub b.capacity b.offset = room b := by
  have htop : b.base + b.capacity ≤ 2^63 := h.below_top
  exact wsub_eq h.offset_le (by omega)

def Exact (A : Arena) : Prop := A.largestRemaining = roomAfter A.blocks A.current

/-- The number is right, and the remembered block, if it is after the current one, has that much. -/
structure Cached (A : Arena) : Prop where
  exact : Exact A
  attained : A.current < A.largestRemainingIdx →
    room (A.blocks.get A.largestRemainingIdx) = A.largestRemaining

/-- No block after `idx` has more room than the remembered one, if that is after `idx`. -/
def Leads (A : Arena) (idx : ℕ) : Prop :=
  idx < A.largestRemainingIdx → ∀ i < A.blocks.len, idx < i →
    room (A.blocks.get i) ≤ room (A.blocks.get A.largestRemainingIdx)

theorem setCurrentBlock_cache (A : Arena) (idx : ℕ) :
    (A.setCurrentBlock idx).blocks = A.blocks ∧ (A.setCurrentBlock idx).current = idx ∧
      (idx < A.largestRemainingIdx ∧
          (A.setCurrentBlock idx).largestRemainingIdx = A.largestRemainingIdx ∧
          (A.setCurrentBlock idx).largestRemaining =
            wsub (A.blocks.get A.largestRemainingIdx).capacity
              (A.blocks.get A.largestRemainingIdx).offset ∨
        A.largestRemainingIdx ≤ idx ∧
          ((A.setCurrentBlock idx).largestRemaining,(A.setCurrentBlock idx).largestRemainingIdx) =
            largestFrom (fun i => wsub (A.blocks.get i).capacity (A.blocks.get i).offset)
              (A.blocks.len - (idx+1)) (idx+1) 0 idx) := by
  unfold Arena.setCurrentBlock Arena.computeLargestRemaining
  dsimp only
  by_cases hkept : A.largestRemainingIdx ≥ idx+1
  · rw [if_pos hkept]
    exact ⟨rfl,rfl,Or.inl ⟨hkept,rfl,rfl⟩⟩
  · rw [if_neg hkept]
    exact ⟨rfl,rfl,Or.inr ⟨by omega,rfl⟩⟩

section entering
variable {A : Arena} {idx : ℕ}

theorem cached_setCurrentBlock (hlaid : Laid A.blocks) (hidx : idx < A.blocks.len)
    (hlargest : A.largestRemainingIdx < A.blocks.len) (hleads : Leads A idx) :
    Cached (A.setCurrentBlock idx) := by
  obtain ⟨hblocks,hcurrent,hcases⟩ := setCurrentBlock_cache A idx
  have hroom : ∀ j < A.blocks.len,
      wsub (A.blocks.get j).capacity (A.blocks.get j).offset = room (A.blocks.get j) :=
    fun j hj => wsub_room (hlaid.placed j hj)
  rcases hcases with ⟨hlater,hbest,hrem⟩ | ⟨-,hscan⟩
  · rw [hroom _ hlargest] at hrem
    constructor
    · rw [Exact, hblocks, hcurrent, hrem]
      exact le_antisymm (room_le_roomAfter hlater hlargest) (roomAfter_le (hleads hlater))
    · rw [hblocks, hbest, hrem]
      exact fun _ => rfl
  · obtain ⟨hmax,hat⟩ := largestFrom_blocks _ (fun j hj _ => hroom j hj) hidx
    rw [← hscan] at hmax hat
    dsimp only at hmax hat
    constructor
    · rw [Exact, hblocks, hcurrent, hmax]
    · rw [hblocks, hcurrent, hmax]
      exact hat

/-- When the remembered block does not lead, entering remembers too little. -/
theorem exact_setCurrentBlock_iff (hlaid : Laid A.blocks) (hidx : idx < A.blocks.len)
    (hlargest : A.largestRemainingIdx < A.blocks.len) :
    Exact (A.setCurrentBlock idx) ↔ Leads A idx := by
  constructor
  · intro hexact hlater i hi hlt
    obtain ⟨hblocks,hcurrent,hcases⟩ := setCurrentBlock_cache A idx
    rcases hcases with ⟨-,-,hrem⟩ | ⟨hle,-⟩
    · rw [Exact, hrem, hblocks, hcurrent, wsub_room (hlaid.placed _ hlargest)] at hexact
      rw [hexact]
      exact room_le_roomAfter hlt hi
    · omega
  · exact fun hleads => (cached_setCurrentBlock hlaid hidx hlargest hleads).exact

theorem cached_of_exact (hlaid : Laid A.blocks) (hidx : idx < A.blocks.len)
    (hlargest : A.largestRemainingIdx < A.blocks.len) (hexact : Exact (A.setCurrentBlock idx)) :
    Cached (A.setCurrentBlock idx) :=
  cached_setCurrentBlock hlaid hidx hlargest ((exact_setCurrentBlock_iff hlaid hidx hlargest).mp
    hexact)

end entering

section requests
variable {A : Arena} {size align : ℕ}

theorem cached_congr {A' : Arena} (h : Cached A) (hblocks : A'.blocks = A.blocks)
    (hcurrent : A'.current = A.current) (hrem : A'.largestRemaining = A.largestRemaining)
    (hbest : A'.largestRemainingIdx = A.largestRemainingIdx) : Cached A' := by
  constructor
  · rw [Exact, hrem, hblocks, hcurrent]
    exact h.exact
  · rw [hrem, hblocks, hcurrent, hbest]
    exact h.attained

theorem cached_finishSlowPath (h : Cached A) : Cached A.finishSlowPath := by
  constructor
  · have hcongr := roomAfter_congr (finishSlowPath_len A) (i := A.current)
      (fun j _ hlt => congrArg room (finishSlowPath_get A (Nat.ne_of_gt hlt)))
    exact Eq.trans h.exact hcongr.symm
  · intro hlater
    rw [finishSlowPath_get A (Nat.ne_of_gt hlater)]
    exact h.attained hlater

theorem leads_forward (h : Cached A) {B : Arena} {idx : ℕ} (hlater : A.current < idx)
    (hbest : B.largestRemainingIdx = A.largestRemainingIdx) (hlen : B.blocks.len = A.blocks.len)
    (hsame : ∀ j, idx < j → B.blocks.get j = A.blocks.get j) : Leads B idx := by
  intro hahead i hi hlt
  rw [hbest] at hahead ⊢
  rw [hsame i hlt, hsame _ hahead, h.attained (hlater.trans hahead),
    show A.largestRemaining = roomAfter A.blocks A.current from h.exact]
  exact room_le_roomAfter (hlater.trans hlt) (by omega)

theorem cached_retained (h : Wf A) (hc : Cached A) (hpow : PowerOfTwo align)
    (hsize : size < 2^64) {i p delta : ℕ} {b : Block}
    (hr : A.retained size align = some (i,p,delta,b)) :
    Cached (Arena.setCurrentBlock { A.finishSlowPath with
      bytesAllocated := wadd A.finishSlowPath.bytesAllocated delta
      blocks := A.finishSlowPath.blocks.modify i (fun _ => b) } i) := by
  obtain ⟨hlater,hi,-,-,-,hcap,rfl⟩ := retained_some h hpow hsize hr
  have hsame := finishSlowPath_get A (Nat.ne_of_gt hlater)
  have hlen := finishSlowPath_len A
  have hfsp := wf_finishSlowPath h
  have hwrite : A.finishSlowPath.blocks.modify i (fun _ => { A.blocks.get i with offset := size }) =
      A.finishSlowPath.blocks.modify i (fun b => { b with offset := size }) :=
    InlineVec.modify_congr _ (by rw [hsame])
  obtain ⟨hlaid,-⟩ := laid_offset hfsp.laid i size (by rw [hsame]; exact hcap)
  rw [hwrite]
  apply cached_setCurrentBlock hlaid
  · rw [InlineVec.len_modify, hlen]
    exact hi
  · rw [InlineVec.len_modify]
    exact hfsp.largest_lt
  · apply leads_forward (cached_finishSlowPath hc) hlater (by rfl) (by rw [InlineVec.len_modify])
    intro j hlt
    rw [InlineVec.get_modify, if_neg (fun hh => Nat.ne_of_gt hlt hh.1)]

theorem cached_fresh {B : Arena} (hlaid : Laid B.blocks) {idx : ℕ} (hlen : B.blocks.len = idx+1)
    (hlargest : B.largestRemainingIdx < B.blocks.len) : Cached (B.setCurrentBlock idx) := by
  apply cached_setCurrentBlock hlaid (by omega) hlargest
  intro hahead
  omega

theorem cached_slowWith (h : Wf A) {sys : SystemAlloc} (hs : Grants sys A.blocks) (hc : Cached A)
    (hpow : PowerOfTwo align) (hsize : size < 2^64) (oom misfit : Ret) :
    Cached (A.slowWith (Arena.newBlockWith oom misfit sys) size align).2 := by
  have hfsp := wf_finishSlowPath h
  have hflushed := cached_finishSlowPath hc
  cases hcall : A.slowWith (Arena.newBlockWith oom misfit sys) size align with
  | mk ret A' =>
  cases slowWith_ends oom misfit hcall with
  | resumed hr => exact cached_retained h hc hpow hsize hr
  | overflowed _ _ => exact hflushed
  | refused _ _ _ => exact cached_congr hflushed rfl rfl rfl rfl
  | misfitted _ _ _ _ => exact cached_congr hflushed rfl rfl rfl rfl
  | fresh _ hn hnew htry =>
    obtain ⟨hfit,n,hmin,hmax,-⟩ := nextBlockFor_some h.growth_min hn
    obtain ⟨hserved,hmoved⟩ := moved_fresh h hs hpow hsize hfit hmin hmax hnew
    obtain ⟨rfl,hrest⟩ := Prod.mk.inj (Option.some.inj (htry.symm.trans hserved))
    obtain ⟨rfl,rfl⟩ := Prod.mk.inj hrest
    have hlaid := hmoved.wf.laid
    rw [setCurrentBlock_blocks] at hlaid
    refine @cached_fresh _ ?_ _ ?_ ?_
    · exact hlaid
    · rw [InlineVec.len_push, finishSlowPath_len]
    · rw [InlineVec.len_push]
      exact Nat.lt_succ_of_lt hfsp.largest_lt

theorem cached_rawInner (h : Wf A) {sys : SystemAlloc} (hs : Grants sys A.blocks) (hc : Cached A)
    (hpow : PowerOfTwo align) (hsize : size < 2^64) (fallible : Bool) :
    Cached (A.rawInner fallible sys size align).2 := by
  by_cases hfits : Fits A size align
  · rw [rawInner_fits (anchored h) sys hpow hfits fallible]
    exact cached_congr hc rfl rfl rfl rfl
  · rcases rawInner_slow sys fallible hfits with ⟨-,-,hraw⟩ | ⟨-,oom,misfit,-,-,hraw⟩
    · rw [hraw]
      exact hc
    · rw [hraw]
      exact cached_slowWith h hs hc hpow hsize oom misfit

theorem cached_serve (h : Wf A) {sys : SystemAlloc} (hs : Grants sys A.blocks) (hc : Cached A)
    {r : Request} (hr : r.Typed) : Cached (r.serve sys A).arena := by
  rcases serve_demand h sys hr with ⟨-,ret,drops,heq⟩ | ⟨size,align,hd,heq⟩
  · rw [heq]
    exact hc
  · obtain ⟨hpow,hsize⟩ := demand_typed hr hd
    have hraw := cached_rawInner h hs hc hpow hsize r.fallible
    rw [heq]
    cases hcall : A.rawInner r.fallible sys size align with
    | mk ret A₁ =>
    rw [hcall] at hraw
    cases ret with
    | ptr p =>
      obtain ⟨registry,harena,-,-⟩ := (filled_fills hd p A₁).arena_eq
      change Cached (r.kind.filled p A₁).arena
      rw [harena]
      exact cached_congr hraw rfl rfl rfl rfl
    | none => exact hraw
    | panic message => exact hraw

end requests

section sweeps
variable {A : Arena} {cp : Checkpoint}

/-- A rewind keeps the number right when the remembered block is not after the checkpoint's, or no
block after the checkpoint's is larger. -/
def Keeps (A : Arena) (cp : Checkpoint) : Prop :=
  cp.blockIdx < A.largestRemainingIdx → ∀ i < A.blocks.len, cp.blockIdx < i →
    (A.blocks.get i).capacity ≤ (A.blocks.get A.largestRemainingIdx).capacity

theorem leads_rewound (h : Wf A) (hcp : Recallable A.blocks cp) (r : DropRegistry) {B : Arena}
    (hB : B = { A with
      dropRegistry := r
      blocks := (clearOffsets (A.current+1 - (cp.blockIdx+1)) (cp.blockIdx+1)
        A.blocks).modify cp.blockIdx (fun b => { b with offset := cp.offset })
      bytesAllocated := wsub cp.bytesAllocated cp.offset }) :
    Leads B cp.blockIdx ↔ Keeps A cp := by
  obtain ⟨-,hgrown,hlen,-,-,habove⟩ := rewound_blocks h hcp rfl
  have hroom : ∀ i < A.blocks.len, cp.blockIdx < i →
      room (B.blocks.get i) = (A.blocks.get i).capacity := by
    intro i hi hlt
    subst hB
    rw [room, habove i hi hlt, (extent_inj (hgrown.extent_eq i hi)).2, Nat.sub_zero]
  have hbest : B.largestRemainingIdx = A.largestRemainingIdx := by rw [hB]
  have hsize : B.blocks.len = A.blocks.len := by
    rw [hB]
    exact hlen
  unfold Leads Keeps
  rw [hbest, hsize]
  apply imp_congr_right
  intro hahead
  apply forall₂_congr
  intro i hi
  apply imp_congr_right
  intro hlt
  rw [hroom i hi hlt, hroom _ h.largest_lt hahead]

/-- A rewind that no destructor stops leaves the number right exactly when it keeps it so. -/
theorem exact_rewind_iff (h : Wf A) (hc : Cached A) (hcp : Recallable A.blocks cp)
    (boom : ℕ → ℕ → Bool) : (Exact (A.rewind boom cp).arena ↔
      ((A.dropRegistry.runDropsUntil boom cp.dropRegistryLen).2.2 = false → Keeps A cp)) ∧
    (((A.dropRegistry.runDropsUntil boom cp.dropRegistryLen).2.2 = false → Keeps A cp) →
      Cached (A.rewind boom cp).arena) := by
  unfold Arena.rewind
  rw [if_pos hcp.idx_lt]
  dsimp only
  cases hpanic : (A.dropRegistry.runDropsUntil boom cp.dropRegistryLen).2.2 with
  | true =>
    have hsame : Cached { A with
        dropRegistry := (A.dropRegistry.runDropsUntil boom cp.dropRegistryLen).2.1 } :=
      cached_congr hc rfl rfl rfl rfl
    simp only [if_true]
    exact ⟨⟨nofun,fun _ => hsame.exact⟩,fun _ => hsame⟩
  | false =>
    simp only [Bool.false_eq_true, if_false, true_imp_iff]
    obtain ⟨hlaid,-,hlen,-,-,-⟩ := rewound_blocks h hcp rfl
    have hidx := hcp.idx_lt
    have hlargest := h.largest_lt
    rw [← hlen] at hidx hlargest
    have hleads := leads_rewound h hcp
      (A.dropRegistry.runDropsUntil boom cp.dropRegistryLen).2.1 rfl
    rw [← hleads]
    exact ⟨exact_setCurrentBlock_iff hlaid hidx hlargest,
      cached_setCurrentBlock hlaid hidx hlargest⟩

theorem cached_rewind (h : Wf A) (hcp : Recallable A.blocks cp) {boom : ℕ → ℕ → Bool}
    (hdone : (A.rewind boom cp).panic = none) (hexact : Exact (A.rewind boom cp).arena) :
    Cached (A.rewind boom cp).arena := by
  have hflag : (A.dropRegistry.runDropsUntil boom cp.dropRegistryLen).2.2 = false := by
    rcases (rewind_cases boom h hcp).2.2 with ⟨hpanic,-,-⟩ | ⟨-,hflag,-⟩
    · exact nomatch hdone.symm.trans hpanic
    · exact hflag
  obtain ⟨hlaid,-,hlen,-,-,-⟩ := rewound_blocks h hcp rfl
  have hidx := hcp.idx_lt
  have hlargest := h.largest_lt
  rw [← hlen] at hidx hlargest
  revert hexact
  unfold Arena.rewind
  rw [if_pos hcp.idx_lt]
  dsimp only
  rw [hflag]
  simp only [Bool.false_eq_true, if_false]
  exact cached_of_exact hlaid hidx hlargest

theorem cached_reset_done (h : Wf A) {boom : ℕ → ℕ → Bool} (hdone : (A.reset boom).panic = none) :
    Cached (A.reset boom).arena := by
  have hfirst : 0 < A.blocks.len := Nat.zero_lt_of_lt h.high_lt
  have hlen := len_clearOffsets (A.highWaterMark+1) 0 A.blocks
  have hempty : ∀ i < A.blocks.len,
      ((clearOffsets (A.highWaterMark+1) 0 A.blocks).get i).capacity =
        room ((clearOffsets (A.highWaterMark+1) 0 A.blocks).get i) := by
    intro i hi
    have hemptied := @emptied_of A h A.dropRegistry _ 0 0 rfl hfirst
    have hoffset := hemptied.empty i hi
    dsimp only at hoffset
    rw [room, hoffset, Nat.sub_zero]
  have hflag : (A.dropRegistry.runAllDrops boom).2.2 = false := by
    rcases (reset_cases boom h).2.2 with ⟨hpanic,-,-⟩ | ⟨-,hflag,-⟩
    · exact nomatch hdone.symm.trans hpanic
    · exact hflag
  unfold Arena.reset
  dsimp only
  rw [hflag]
  simp only [Bool.false_eq_true, if_false]
  generalize clearOffsets (A.highWaterMark+1) 0 A.blocks = blocks at hlen hempty ⊢
  have hscan : (if blocks.len > 1 then
      largestFrom (fun i => (blocks.get i).capacity) (blocks.len-1) 1 0 0 else (0,0)) =
        largestFrom (fun i => (blocks.get i).capacity) (blocks.len - (0+1)) (0+1) 0 0 := by
    split
    · rfl
    · rw [show blocks.len - (0+1) = 0 by omega]
      rfl
  obtain ⟨hmax,hat⟩ := largestFrom_blocks (fun i => (blocks.get i).capacity)
    (fun j hj _ => hempty j (hlen ▸ hj)) (hlen ▸ hfirst)
  constructor
  · rw [Exact, hscan, hmax]
  · rw [hscan, hmax]
    exact hat

theorem cached_reset (h : Wf A) (hc : Cached A) (boom : ℕ → ℕ → Bool) :
    Cached (A.reset boom).arena := by
  rcases (reset_cases boom h).2.2 with ⟨-,-,harena⟩ | ⟨hdone,-,-⟩
  · rw [harena]
    exact cached_congr hc rfl rfl rfl rfl
  · exact cached_reset_done h hdone

end sweeps

def plainSlowWith (newBlock : Arena → ℕ → ℕ → Ret × Arena) (A : Arena) (size align : ℕ) :
    Ret × Arena :=
  let A := A.finishSlowPath
  match firstFit A.blocks size align (A.blocks.len - (A.current+1)) (A.current+1) with
  | some (i,p,delta,block) =>
    let A := { A with
      bytesAllocated := wadd A.bytesAllocated delta
      blocks := A.blocks.modify i (fun _ => block) }
    (.ptr p,A.setCurrentBlock i)
  | none => newBlock A size align

/-- The shortcut changes nothing: its number is right, and both slow paths pick the block a plain
first-fit scan picks. -/
structure Harmless (A : Arena) : Prop where
  exact : Exact A
  plain : ∀ sys size align, PowerOfTwo align → align ≤ minBlockAlign → size < 2^64 →
    A.allocSlow sys size align = plainSlowWith (Arena.allocNewBlock sys) A size align ∧
      A.allocSlowTry sys size align = plainSlowWith (Arena.tryAllocNewBlock sys) A size align

section choice
variable {A : Arena} {size align : ℕ}

theorem firstFit_none (h : Wf A) (hexact : Exact A) (hpow : PowerOfTwo align)
    (hsize : size < 2^64) (hmore : A.largestRemaining < size) :
    firstFit A.blocks size align (A.blocks.len - (A.current+1)) (A.current+1) = none := by
  rw [Option.eq_none_iff_forall_not_mem]
  rintro ⟨j,p,delta,b⟩ hfound
  obtain ⟨hlo,hhi,halign,hfit⟩ := firstFit_some hfound
  have hj : j < A.blocks.len := by omega
  have hempty := h.tail j hj hlo
  rw [tryAlloc_empty (h.laid.placed j hj) hempty hpow halign hsize] at hfit
  obtain ⟨hcap,-⟩ := Option.ite_none_right_eq_some.mp hfit
  have hroom : room (A.blocks.get j) ≤ roomAfter A.blocks A.current := room_le_roomAfter hlo hj
  rw [room, hempty, ← show A.largestRemaining = _ from hexact] at hroom
  omega

/-- With the right number the shortcut skips only scans that find nothing. -/
theorem retained_eq_firstFit (h : Wf A) (hexact : Exact A) (hpow : PowerOfTwo align)
    (hlow : align ≤ minBlockAlign) (hsize : size < 2^64) : A.retained size align =
      firstFit A.blocks size align (A.blocks.len - (A.current+1)) (A.current+1) := by
  unfold Arena.retained
  rw [if_neg (by omega)]
  split
  · rfl
  · rw [firstFit_none h hexact hpow hsize (by omega)]

theorem slowWith_plain (h : Wf A) (hexact : Exact A) (hpow : PowerOfTwo align)
    (hlow : align ≤ minBlockAlign) (hsize : size < 2^64)
    (newBlock : Arena → ℕ → ℕ → Ret × Arena) :
    A.slowWith newBlock size align = plainSlowWith newBlock A size align := by
  have hcongr := roomAfter_congr (finishSlowPath_len A) (i := A.current)
    (fun j _ hlt => congrArg room (finishSlowPath_get A (Nat.ne_of_gt hlt)))
  have hflushed : Exact A.finishSlowPath := Eq.trans hexact hcongr.symm
  have hretained := retained_eq_firstFit (wf_finishSlowPath h) hflushed hpow hlow hsize
  unfold Arena.slowWith plainSlowWith
  cases hfound : firstFit A.finishSlowPath.blocks size align
      (A.finishSlowPath.blocks.len - (A.finishSlowPath.current+1))
      (A.finishSlowPath.current+1) with
  | none => simp only [hretained, hfound]
  | some found => simp only [hretained, hfound]

theorem harmless_iff (h : Wf A) : Harmless A ↔ Exact A := by
  constructor
  · exact Harmless.exact
  · intro hexact
    refine ⟨hexact,fun sys size align hpow hlow hsize => ⟨?_,?_⟩⟩
    · exact slowWith_plain h hexact hpow hlow hsize _
    · exact slowWith_plain h hexact hpow hlow hsize _

end choice

def Keeping (w : World) : Op → Prop
  | .rewind boom stamp => ∀ m ∈ w.markAt stamp,
      (w.arena.dropRegistry.runDropsUntil boom m.cp.dropRegistryLen).2.2 = false →
        Keeps w.arena m.cp
  | .rollback boom => ∀ f ∈ w.opened.head?,
      (w.arena.dropRegistry.runDropsUntil boom f.txn.checkpoint.dropRegistryLen).2.2 = false →
        Keeps w.arena f.txn.checkpoint
  | _ => True

/-- One call leaves the number right exactly when it keeps it so. -/
theorem exact_step_iff {w : World} (h : Inv w) (hc : Cached w.arena) {op : Op}
    (hop : Honest w op) : (Exact (w.step op).arena ↔ Keeping w op) ∧
      (Keeping w op → Cached (w.step op).arena) := by
  have of_cached : Keeping w op = True → Cached (w.step op).arena →
      (Exact (w.step op).arena ↔ Keeping w op) ∧ (Keeping w op → Cached (w.step op).arena) := by
    intro htrue hcached
    rw [htrue]
    exact ⟨⟨fun _ => trivial,fun _ => hcached.exact⟩,fun _ => hcached⟩
  cases op with
  | request sys r => exact of_cached rfl (cached_serve h.wf hop.1 hc hop.2)
  | guarded sys r =>
    apply of_cached rfl
    cases hopened : w.opened with
    | nil =>
      simp only [World.step, hopened]
      exact hc
    | cons f rest =>
      simp only [World.step, hopened]
      change Cached (f.txn.serve sys w.arena r).arena
      rcases txn_serve f.txn sys w.arena r with ⟨-,heq⟩ | ⟨-,ret,-,lost,heq⟩
      · rw [heq]
        exact cached_serve h.wf hop.1 hc hop.2
      · rw [heq]
        exact hc
  | checkpoint => exact of_cached rfl hc
  | rewind boom stamp =>
    cases hfound : w.markAt stamp with
    | none =>
      simp only [World.step, Keeping, hfound]
      exact ⟨⟨fun _ m hm => absurd hm (Option.not_mem_none m),fun _ => hc.exact⟩,fun _ => hc⟩
    | some m =>
      simp only [World.step, Keeping, hfound, Option.mem_def, Option.some.injEq, forall_eq']
      exact exact_rewind_iff h.wf hc (h.recallable m (List.mem_of_find?_eq_some hfound)) boom
  | reset boom => exact of_cached rfl (cached_reset h.wf hc boom)
  | begin => exact of_cached rfl (cached_congr hc rfl rfl rfl rfl)
  | commit =>
    apply of_cached rfl
    cases hopened : w.opened with
    | nil =>
      simp only [World.step, hopened]
      exact hc
    | cons f rest =>
      simp only [World.step, hopened]
      exact cached_congr hc rfl rfl rfl rfl
  | rollback boom =>
    cases hopened : w.opened with
    | nil =>
      simp only [World.step, Keeping, hopened]
      exact ⟨⟨fun _ m hm => absurd hm (Option.not_mem_none m),fun _ => hc.exact⟩,fun _ => hc⟩
    | cons f rest =>
      have hf : f ∈ w.opened := hopened ▸ List.mem_cons_self
      have hlower : Cached { w.arena with txnDepth := w.arena.txnDepth-1 } :=
        cached_congr hc rfl rfl rfl rfl
      simp only [World.step, Keeping, hopened, List.head?_cons, Option.mem_def,
        Option.some.injEq, forall_eq']
      rw [drop_eq h hf boom]
      exact exact_rewind_iff (wf_txnDepth h.wf _) hlower (h.recallable _ (h.opened f hf).1) boom
  | setLimit bytes =>
    apply of_cached rfl
    cases hopened : w.opened with
    | nil =>
      simp only [World.step, hopened]
      exact hc
    | cons f rest =>
      simp only [World.step, hopened]
      exact hc

theorem cached_withCapacity {sys : SystemAlloc} {feature : Bool} {initialBytes : ℕ} {A : Arena}
    (hA : Arena.withCapacity sys feature initialBytes = some A) : Cached A := by
  obtain ⟨b,-,rfl⟩ := Option.map_eq_some_iff.mp hA
  constructor
  · have hnone : roomAfter ((InlineVec.new : Blocks).push b) 0 = 0 := by
      apply Nat.eq_zero_of_le_zero
      apply roomAfter_le
      intro j hj hlt
      rw [InlineVec.len_push, InlineVec.len_new] at hj
      omega
    exact hnone.symm
  · exact fun hlater => absurd hlater (Nat.lt_irrefl 0)

/-- The shortcut is harmless in every state of a run if and only if every rewind and rollback of
the run keeps the remembered room right. -/
theorem harmless_run_iff {sys : SystemAlloc} {feature : Bool} {initialBytes : ℕ} {A : Arena}
    (hs : Grants sys (InlineVec.new : Blocks))
    (hA : Arena.withCapacity sys feature initialBytes = some A) (ops : List Op)
    (h : Along World.step Honest (World.start A) ops) :
    Harmless A ∧ (Along World.step (fun w op => Harmless (w.step op).arena) (World.start A) ops ↔
      Along World.step Keeping (World.start A) ops) := by
  obtain ⟨hwf,-,-,-,-,hregistry⟩ := wf_withCapacity hs hA
  have hinv : Inv (World.start A) :=
    inv_start hwf (by rw [hregistry, DropRegistry.entries_new])
  have hcached := cached_withCapacity hA
  refine ⟨(harmless_iff hwf).mpr hcached.exact,?_⟩
  apply along_congr_while World.step Honest (fun w => Inv w ∧ Cached w.arena) _ _ _ ops
    ⟨hinv,hcached⟩ h
  · intro w op hw hop
    rw [harmless_iff (inv_step hw.1 hop).wf]
    exact (exact_step_iff hw.1 hw.2 hop).1
  · intro w op hw hop hkeeps
    exact ⟨inv_step hw.1 hop,(exact_step_iff hw.1 hw.2 hop).2 hkeeps⟩

def oversizeCalls : List Op :=
  [.checkpoint,.request (oneBlock (maxBlockSize+64) (2^25)) ⟨.raw (maxBlockSize+64) 1,true⟩,
    .request (oneBlock maxBlockSize (2^26)) ⟨.raw 100 1,true⟩,.rewind quiet 1]

theorem oversize_along {A : Arena} (hA : smallArena false 64 = some A) :
    Along World.step Permitted (World.start A) oversizeCalls := by
  refine ⟨⟨trivial,trivial⟩,⟨⟨?_,?_⟩,trivial⟩,⟨⟨?_,?_⟩,trivial⟩,⟨trivial,?_⟩,trivial⟩
  · apply grants_second (by norm_num [minBlockAlign]) (by norm_num [addressTop, maxBlockSize])
    all_goals
      cases hA
      decide +kernel
  · exact show maxBlockSize+64 < 2^64 by norm_num [maxBlockSize]
  · apply grants_oneBlock (by norm_num) (by norm_num [minBlockAlign])
      (by norm_num [addressTop, maxBlockSize])
    intro i hi
    have hlen : i < 2 := by
      apply lt_of_lt_of_le hi
      cases hA
      decide +kernel
    apply apart_symm
    apply apart_of_le
    interval_cases i
    all_goals
      cases hA
      decide +kernel
  · exact show 100 < 2^64 by norm_num
  · show 1 ∈ World.valid _
    cases hA
    decide +kernel

theorem harmless_run_iff_oversize : ∃ A, smallArena false 64 = some A ∧
    ¬ Along World.step (fun w op => Harmless (w.step op).arena) (World.start A) oversizeCalls := by
  obtain ⟨A,hA⟩ : ∃ A, smallArena false 64 = some A := ⟨_,rfl⟩
  have hgrants : Grants (oneBlock 64 4096) (InlineVec.new : Blocks) :=
    grants_oneBlock (by norm_num) (by norm_num [minBlockAlign]) (by norm_num [addressTop]) nofun
  have hhonest : Along World.step Honest (World.start A) oversizeCalls :=
    along_mono World.step Permitted (fun _ _ h => h.1) _ _ (oversize_along hA)
  refine ⟨A,hA,fun hharmless => ?_⟩
  obtain ⟨-,-,-,hlast,-⟩ := (harmless_run_iff hgrants hA oversizeCalls hhonest).2.mp hharmless
  have hkeeps := hlast ⟨1,A.checkpoint⟩ (by cases hA; rfl) (by cases hA; decide +kernel)
    (by cases hA; decide +kernel) 1 (by cases hA; decide +kernel) (by cases hA; decide +kernel)
  revert hkeeps
  cases hA
  decide +kernel

/-- After a valid rewind a request that fits the first of two retained blocks, and would be put
there by a plain scan, is refused. -/
theorem shortcut_refuses : ∃ w, Reached Permitted w ∧ ¬ Harmless w.arena ∧
    w.arena.largestRemaining = maxBlockSize ∧
      room (w.arena.blocks.get (w.arena.current+1)) = maxBlockSize+64 ∧
      (w.arena.allocSlowTry noMemory (maxBlockSize+64) 1).1 = .none ∧
      (plainSlowWith (Arena.tryAllocNewBlock noMemory) w.arena (maxBlockSize+64) 1).1 =
        .ptr (2^25) := by
  obtain ⟨A,hA⟩ : ∃ A, smallArena false 64 = some A := ⟨_,rfl⟩
  have hrefused : ((run World.step (World.start A) oversizeCalls).arena.allocSlowTry noMemory
      (maxBlockSize+64) 1).1 = .none := by
    cases hA
    decide +kernel
  have hplain : (plainSlowWith (Arena.tryAllocNewBlock noMemory)
      (run World.step (World.start A) oversizeCalls).arena (maxBlockSize+64) 1).1 =
        .ptr (2^25) := by
    cases hA
    decide +kernel
  refine ⟨_,reached_small (by norm_num) hA oversizeCalls (oversize_along hA),fun hharmless => ?_,
    ?_,?_,hrefused,hplain⟩
  · have hsame := (hharmless.plain noMemory (maxBlockSize+64) 1 powerOfTwo_one
      (by norm_num [minBlockAlign]) (by norm_num [maxBlockSize])).2
    rw [hsame, hplain] at hrefused
    cases hrefused
  · cases hA
    decide +kernel
  · cases hA
    decide +kernel

end FastArena.RoomCache
