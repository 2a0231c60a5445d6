import FastArena.BoxDrops

/-!
# Values given to the arena

A value that is stored belongs to the arena. Its destructor does not run in the
call that stores it; without the `drop-tracking` feature it never runs, with it
only in a rewind, a reset or a rollback. A value of size zero is the exception: the
call returns before storing it, and it is destroyed on the way out.
-/

set_option autoImplicit false

namespace FastArena.Ownership
open FastArena.MachineWord FastArena.ArenaBlock FastArena.InlineStorage FastArena.DropTracking
  FastArena.ArenaCore FastArena.ArenaInvariant FastArena.RawRequest FastArena.ArenaSweep
  FastArena.ArenaRequests FastArena.ArenaTransaction FastArena.LabelledRun FastArena.ArenaWorld
  FastArena.ArenaSteps FastArena.BoxDrops

inductive Entry where
  | request (r : Request)
  | guarded (r : Request)
  | box (ty : Ty)

def Entry.kind : Entry → Kind
  | .request r => r.kind
  | .guarded r => r.kind
  | .box ty => .value ty

def Entry.Typed : Entry → Prop
  | .request r => r.Typed
  | .guarded r => r.Typed
  | .box _ => True

def Entry.serve (sys : SystemAlloc) (w : World) : Entry → Option Outcome
  | .request r => some (r.serve sys w.arena)
  | .guarded r => w.opened.head?.map (fun f => f.txn.serve sys w.arena r)
  | .box ty => some (ArenaBox.new sys w.arena ty).2

def Sweeping : Op → Prop
  | .rewind _ _ => True
  | .reset _ => True
  | .rollback _ => True
  | _ => False

/-- The arena takes what it is given: the call destroys nothing, and in every run that follows a
destructor runs only in a sweep, or never if the arena does not keep track. -/
def TakesOver (w : World) (o : Outcome) : Prop :=
  o.valueDrops = 0 ∧ ∀ ops, Along World.step Honest (w.take o) ops →
    (w.arena.dropRegistry.isTracking = false →
      (run World.step (w.take o) ops).drops = w.drops) ∧
    ∀ op, Honest (run World.step (w.take o) ops) op → ¬ Sweeping op →
      ((run World.step (w.take o) ops).step op).drops = (run World.step (w.take o) ops).drops

def Vanishes : Kind → Prop
  | .value ty => ty.size = 0 ∧ ty.needsDrop = true
  | _ => False

section calls
variable {sys : SystemAlloc} {A : Arena} {k : Kind}

def Kept (o : Outcome) : Prop := ∀ p, o.ret = .ptr p → o.valueDrops = 0

theorem kept_answer (A : Arena) (ret : Ret) : Kept (answer A ret 0) := fun _ _ => rfl

theorem kept_filled (k : Kind) (p : ℕ) (A : Arena) : (k.filled p A).valueDrops = 0 := by
  have helements : ∀ ty len yields, (placeElements ty len yields p A).valueDrops = 0 := by
    intro ty len yields
    unfold placeElements
    split
    · rfl
    · rfl
  cases k with
  | slice ty len yields => exact helements ty len yields
  | sliceCopy ty len => exact helements ty len len
  | _ => rfl

theorem kept_onRaw (k : Kind) (r : Ret × Arena) (size align lost : ℕ) :
    Kept (onRaw r size align lost k.filled) := by
  obtain ⟨ret,A⟩ := r
  intro p h
  cases ret with
  | ptr q => exact kept_filled k q A
  | none => exact Ret.noConfusion h
  | panic message => exact Ret.noConfusion h

theorem kept_slice (k : Kind) (fallible : Bool) (overflow : Ret) (ty : Ty) (len : ℕ) :
    Kept (allocSliceWith fallible overflow sys A ty len k.filled) := by
  unfold allocSliceWith
  split
  · exact kept_answer _ _
  · split
    · exact kept_answer _ _
    · exact kept_onRaw k _ _ _ _

theorem kept_raw (k : Kind) (fallible : Bool) (size align : ℕ) :
    Kept (allocRawWith fallible sys A size align k.filled) := by
  unfold allocRawWith
  split
  · split
    · exact kept_answer _ _
    · exact kept_onRaw k _ _ _ _
  · exact kept_answer _ _

theorem kept_str (len : ℕ) (fallible : Bool) : Kept (Request.serve sys A ⟨.str len,fallible⟩) := by
  cases fallible with
  | false =>
    change Kept (allocStr sys A len)
    unfold allocStr
    split
    · exact kept_answer _ _
    · dsimp only
      split
      · exact fun _ _ => rfl
      · exact kept_onRaw (.str len) _ _ _ _
  | true =>
    change Kept (tryAllocStr sys A len)
    unfold tryAllocStr
    split
    · exact kept_answer _ _
    · split
      · exact kept_answer _ _
      · split
        · exact fun _ _ => rfl
        · exact kept_onRaw (.str len) _ _ _ _

theorem kept_serve (r : Request) (hk : ∀ ty, r.kind = .value ty → ty.size ≠ 0) :
    Kept (r.serve sys A) := by
  obtain ⟨kind,fallible⟩ := r
  cases kind with
  | value ty =>
    have hsize : ty.size ≠ 0 := hk ty rfl
    have hserve : Request.serve sys A ⟨.value ty,fallible⟩ = onRaw
        (A.rawInner fallible sys ty.size ty.align) ty.size ty.align (dropGlue ty)
          (Kind.value ty).filled := by
      cases fallible <;> exact if_neg hsize
    rw [hserve]
    exact kept_onRaw _ _ _ _ _
  | slice ty len yields => cases fallible <;> exact kept_slice (.slice ty len yields) _ _ ty len
  | sliceCopy ty len => cases fallible <;> exact kept_slice (.sliceCopy ty len) _ _ ty len
  | str len => exact kept_str len fallible
  | uninit ty =>
    change Kept (allocUninit sys A ty)
    unfold allocUninit
    split
    · exact kept_answer _ _
    · exact kept_onRaw (.uninit ty) _ _ _ _
  | raw size align => cases fallible <;> exact kept_raw (.raw size align) _ size align
  | zeroed size align =>
    cases fallible with
    | false =>
      change Kept (allocZeroed sys A size align)
      unfold allocZeroed
      split
      · exact kept_answer _ _
      · exact kept_raw (.zeroed size align) false size align
    | true => exact kept_raw (.zeroed size align) true size align
  | cacheAligned size =>
    cases fallible <;> exact kept_raw (.cacheAligned size) _ size cacheLineSize

theorem serve_empty {ty : Ty} (hsize : ty.size = 0) (fallible : Bool) :
    Request.serve sys A ⟨.value ty,fallible⟩ = answer A (.ptr ty.align) (dropGlue ty) := by
  cases fallible <;> exact if_pos hsize

/-- A call that succeeds destroys what it was given if that vanishes, and only then. -/
theorem valueDrops_serve (r : Request) {p : ℕ} (h : (r.serve sys A).ret = .ptr p) :
    (r.serve sys A).valueDrops = 0 ↔ ¬ Vanishes r.kind := by
  by_cases hempty : ∃ ty, r.kind = .value ty ∧ ty.size = 0
  · obtain ⟨ty,hk,hsize⟩ := hempty
    obtain ⟨kind,fallible⟩ := r
    obtain rfl : kind = .value ty := hk
    rw [serve_empty hsize]
    unfold answer dropGlue Vanishes
    cases hdrop : ty.needsDrop <;> simp [hsize, hdrop]
  · refine iff_of_true (kept_serve r (fun ty hk hsize => hempty ⟨ty,hk,hsize⟩) p h) ?_
    intro hvanishes
    cases hk : r.kind with
    | value ty =>
      rw [hk] at hvanishes
      exact hempty ⟨ty,hk,hvanishes.1⟩
    | _ =>
      rw [hk] at hvanishes
      exact hvanishes

end calls

section runs
variable {w : World}

theorem drops_unswept (op : Op) (h : ¬ Sweeping op) : (w.step op).drops = w.drops := by
  cases op with
  | rewind boom stamp => exact absurd trivial h
  | reset boom => exact absurd trivial h
  | rollback boom => exact absurd trivial h
  | request sys r => rfl
  | checkpoint => rfl
  | begin => rfl
  | guarded sys r =>
    simp only [World.step]
    split <;> rfl
  | commit =>
    simp only [World.step]
    split <;> rfl
  | setLimit bytes =>
    simp only [World.step]
    split <;> rfl

theorem tracking_served {sys : SystemAlloc} {r : Request} {o : Outcome}
    (ho : Served sys w.arena r o) :
    o.arena.dropRegistry.isTracking = w.arena.dropRegistry.isTracking := by
  cases ho with
  | carved _ _ _ hcarved _ hfills =>
    obtain ⟨registry,harena,htrack,-⟩ := hfills.arena_eq
    rw [harena, ← hcarved.registry]
    exact htrack
  | failed _ _ _ _ hunmoved => exact congrArg DropRegistry.isTracking hunmoved.registry
  | answered _ => rfl

/-- No call turns the feature on or off. -/
theorem tracking_step (hinv : Inv w) {op : Op} (hop : Honest w op) :
    (w.step op).arena.dropRegistry.isTracking = w.arena.dropRegistry.isTracking := by
  have hstep := stepped hinv hop
  generalize w.step op = w' at hstep
  cases hstep with
  | served _ _ hserved => exact tracking_served hserved
  | declined _ => rfl
  | ticked _ => rfl
  | noted _ => rfl
  | @rewound boom n m _ hm _ _ _ =>
    have hinv' : Inv (atDepth w n) := inv_depth hinv n
    obtain ⟨-,hregistry,-⟩ := rewind_cases boom hinv'.wf (hinv'.recallable m hm)
    change ((atDepth w n).arena.rewind boom m.cp).arena.dropRegistry.isTracking = _
    rw [hregistry, DropRegistry.isTracking_runDropsUntil]
    rfl
  | @reset boom _ =>
    obtain ⟨-,hregistry,-⟩ := reset_cases boom hinv.wf
    change (w.arena.reset boom).arena.dropRegistry.isTracking = _
    rw [hregistry, DropRegistry.runAllDrops, DropRegistry.isTracking_runDropsUntil]

theorem entries_untracked {r : DropRegistry} (h : r.isTracking = false) : r.entries = [] := by
  cases r with
  | tracking slots => exact Bool.noConfusion h
  | off => rfl

theorem drops_untracked (hinv : Inv w) {op : Op} (hop : Honest w op)
    (h : w.arena.dropRegistry.isTracking = false) : (w.step op).drops = w.drops := by
  have hturn := turn hinv hop
  generalize cutTo w op = target at hturn
  cases hturn with
  | grown es _ hdrops _ _ _ => exact hdrops
  | cut hdrops _ _ _ =>
    rw [hdrops, entries_untracked h, callsUntil_none _ (Nat.zero_le _)]
    exact List.append_nil _

theorem drops_run (ops : List Op) (hinv : Inv w) (hops : Along World.step Honest w ops)
    (h : w.arena.dropRegistry.isTracking = false) : (run World.step w ops).drops = w.drops := by
  induction ops generalizing w with
  | nil => rfl
  | cons op ops ih =>
    have hnext := ih (inv_step hinv hops.1) hops.2 ((tracking_step hinv hops.1).trans h)
    exact hnext.trans (drops_untracked hinv hops.1 h)

end runs

/-- A call that succeeds takes over what it is given, unless that is a single value without size
and with a destructor. -/
theorem takesOver_iff (w : World) (hw : Reached Honest w) (sys : SystemAlloc)
    (hs : Grants sys w.arena.blocks) (e : Entry) (he : e.Typed) (o : Outcome)
    (ho : e.serve sys w = some o) (hret : ∃ p, o.ret = .ptr p) :
    TakesOver w o ↔ ¬ Vanishes e.kind := by
  have hinv := inv_reached (fun _ _ hop => hop) hw
  obtain ⟨p,hp⟩ := hret
  obtain ⟨r,hr,hkind,hserve⟩ : ∃ r : Request, r.Typed ∧ r.kind = e.kind ∧
      o = r.serve sys w.arena := by
    cases e with
    | request r => exact ⟨r,he,rfl,(Option.some.inj ho).symm⟩
    | guarded r =>
      obtain ⟨f,-,rfl⟩ := Option.map_eq_some_iff.mp ho
      rcases txn_serve f.txn sys w.arena r with ⟨-,heq⟩ | ⟨-,ret,hno,lost,heq⟩
      · exact ⟨r,he,rfl,heq⟩
      · rw [heq] at hp
        exact absurd hp (hno p)
    | box ty =>
      refine ⟨⟨.value ty,false⟩,trivial,rfl,?_⟩
      rw [← Option.some.inj ho]
      unfold ArenaBox.new
      dsimp only
      split <;> rfl
  subst hserve
  have hserved := serve_served hinv.wf hs hr
  rw [← hkind, ← valueDrops_serve r hp]
  refine ⟨And.left,fun hzero => ⟨hzero,fun ops hops => ⟨fun htrack => ?_,fun op _ hop => ?_⟩⟩⟩
  · exact drops_run ops (inv_take hinv hserved) hops ((tracking_served hserved).trans htrack)
  · exact drops_unswept op hop

theorem takesOver_eightBytes : ∃ A o, smallArena true 64 = some A ∧
    Entry.serve noMemory (World.start A) (.box eightBytes) = some o ∧ o.ret = .ptr 4096 ∧
      TakesOver (World.start A) o := by
  obtain ⟨A,hA⟩ : ∃ A, smallArena true 64 = some A := ⟨_,rfl⟩
  have hret : ((ArenaBox.new noMemory A eightBytes).2).ret = .ptr 4096 := by
    cases hA
    decide +kernel
  have hreached : Reached Honest (World.start A) := reached_small (by norm_num) hA [] trivial
  refine ⟨A,_,hA,rfl,hret,(takesOver_iff (World.start A) hreached noMemory (grants_noMemory _)
    (.box eightBytes) trivial _ rfl ⟨4096,hret⟩).mpr ?_⟩
  exact fun hvanishes => absurd hvanishes.1 (by decide)

/-- The value is destroyed while the call that was given it returns a reference to it. -/
theorem token_destroyed : ∃ A o, smallArena false 64 = some A ∧
    Reached Honest (World.start A) ∧
    Entry.serve noMemory (World.start A) (.request ⟨.value token,false⟩) = some o ∧
      o.ret = .ptr 1 ∧ o.valueDrops = 1 ∧ ¬ TakesOver (World.start A) o := by
  obtain ⟨A,hA⟩ : ∃ A, smallArena false 64 = some A := ⟨_,rfl⟩
  refine ⟨A,_,hA,reached_small (by norm_num) hA [] trivial,rfl,rfl,rfl,?_⟩
  exact fun htakes => Nat.one_ne_zero htakes.1

end FastArena.Ownership
