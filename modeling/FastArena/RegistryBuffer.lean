import FastArena.BlocksTouched
import FastArena.BoxDrops
import FastArena.InlineRefinement

/-!
# The registry's own buffer

The thirty-third value with a destructor does not fit inline, and the registry
asks the system allocator for a heap buffer, then for one twice as large each
time that is full. A refusal is a panic, in the fallible calls as well, when the
value is already in its region. It leaks that value: the arena goes on as if
the value had no destructor.
-/

set_option autoImplicit false

namespace FastArena.RegistryBuffer
open FastArena.MachineWord FastArena.ArenaBlock FastArena.InlineStorage FastArena.DropTracking
  FastArena.ArenaCore FastArena.ArenaInvariant FastArena.RawRequest FastArena.ArenaSweep
  FastArena.ArenaRequests FastArena.ArenaTransaction FastArena.LabelledRun FastArena.ArenaWorld
  FastArena.BlocksTouched FastArena.BoxDrops

def registerPanic (slot : Ty) (sys : SystemAlloc) : DropRegistry → Option String
  | .tracking slots => HeapBuffer.pushPanic dropInlineCap sys slot slots.raw
  | .off => none

def refusal (slot : Ty) (sys : SystemAlloc) (r : DropRegistry) (o : Outcome) : Option String :=
  if r.len < o.arena.dropRegistry.len then registerPanic slot sys r else none

-- The panic unwinds from the registry: the region stays carved, with the value in it.
def leaving (r : DropRegistry) (message : String) (o : Outcome) : Outcome :=
  { o with arena := { o.arena with dropRegistry := r }, ret := .panic message }

def registering (slot : Ty) (sys : SystemAlloc) (r : DropRegistry) (o : Outcome) : Outcome :=
  match refusal slot sys r o with
  | some message => leaving r message o
  | none => o

abbrev Call := Op × SystemAlloc

def answered (slot : Ty) (w : World) (c : Call) : Option Outcome :=
  (reply w c.1).map (registering slot c.2 w.arena.dropRegistry)

def step (slot : Ty) (w : World) (c : Call) : World :=
  match answered slot w c with
  | some o => w.take o
  | none => w.step c.1

def Refused (slot : Ty) (w : World) (c : Call) : Prop :=
  ∃ o ∈ reply w c.1, (refusal slot c.2 w.arena.dropRegistry o).isSome = true

instance (slot : Ty) (w : World) (c : Call) : Decidable (Refused slot w c) :=
  inferInstanceAs (Decidable (∃ o ∈ reply w c.1, _))

def bareTy (ty : Ty) : Ty := { ty with needsDrop := false }

def bareKind : Kind → Kind
  | .value ty => .value (bareTy ty)
  | .slice ty len yields => .slice (bareTy ty) len yields
  | .sliceCopy ty len => .sliceCopy (bareTy ty) len
  | k => k

def bare (r : Request) : Request := ⟨bareKind r.kind,r.fallible⟩

def bareOp : Op → Op
  | .request sys r => .request sys (bare r)
  | .guarded sys r => .guarded sys (bare r)
  | op => op

/-- The calls as they turn out: those whose registration is refused are for values without
destructors. -/
def asIf (slot : Ty) : World → List Call → List Op
  | _, [] => []
  | w, c::cs => (if Refused slot w c then bareOp c.1 else c.1) :: asIf slot (step slot w c) cs

structure SameRegion (r : DropRegistry) (o o' : Outcome) : Prop where
  arena_eq : o'.arena = { o.arena with dropRegistry := r }
  carved_eq : o'.carved = o.carved
  wrote_eq : o'.wrote = o.wrote

section bare
variable {sys : SystemAlloc} {A : Arena} {r : Request} {w : World}

theorem register_bare (ty : Ty) (p : ℕ) (d : DropRegistry) : d.register (bareTy ty) p = d := by
  cases d <;> rfl

theorem registerSlice_bare (ty : Ty) (p count : ℕ) (d : DropRegistry) :
    d.registerSlice (bareTy ty) p count = d := by
  cases d with
  | tracking slots =>
    by_cases hcount : count = 0
    · exact if_pos hcount
    · exact if_neg hcount
  | off => rfl

theorem placeElements_bare (ty : Ty) (len yields p : ℕ) (A : Arena) :
    SameRegion A.dropRegistry (placeElements ty len yields p A)
      (placeElements (bareTy ty) len yields p A) := by
  unfold placeElements
  split
  · exact ⟨rfl,rfl,rfl⟩
  · exact ⟨by rw [registerSlice_bare],rfl,rfl⟩

theorem filled_bare (k : Kind) (p : ℕ) (A : Arena) :
    SameRegion A.dropRegistry (k.filled p A) ((bareKind k).filled p A) := by
  cases k with
  | value ty =>
    refine ⟨?_,rfl,rfl⟩
    change { A with dropRegistry := A.dropRegistry.register (bareTy ty) p } = A
    rw [register_bare]
  | slice ty len yields => exact placeElements_bare ty len yields p A
  | sliceCopy ty len => exact placeElements_bare ty len len p A
  | _ => exact ⟨rfl,rfl,rfl⟩

theorem demand_bare (k : Kind) : (bareKind k).demand = k.demand := by
  cases k <;> rfl

theorem payload_bare (k : Kind) : payload (bareKind k) = payload k := by
  cases k <;> rfl

theorem offered_bare (r : Request) : offered (bare r) = offered r := by
  obtain ⟨kind,fallible⟩ := r
  cases kind <;> cases fallible <;> rfl

theorem typed_bare (hr : r.Typed) : (bare r).Typed := by
  obtain ⟨kind,fallible⟩ := r
  cases kind <;> exact hr

theorem honest_bare {op : Op} (h : Honest w op) : Honest w (bareOp op) := by
  cases op with
  | request sys r => exact ⟨h.1,typed_bare h.2⟩
  | guarded sys r => exact ⟨h.1,typed_bare h.2⟩
  | _ => exact h

theorem serve_bare (h : Wf A) (hs : Grants sys A.blocks) (hr : r.Typed)
    (hgrew : A.dropRegistry.len < (r.serve sys A).arena.dropRegistry.len) :
    SameRegion A.dropRegistry (r.serve sys A) ((bare r).serve sys A) := by
  rcases serve_demand h sys hr with ⟨-,ret,drops,heq⟩ | ⟨size,align,hd,heq⟩
  · rw [heq] at hgrew
    exact absurd hgrew (Nat.lt_irrefl _)
  · have hd' : (bare r).kind.demand = some (size,align) := (demand_bare r.kind).trans hd
    have heq' : (bare r).serve sys A = onRaw (A.rawInner r.fallible sys size align) size align
        (bare r).kind.lost (bareKind r.kind).filled := by
      rcases serve_demand h sys (typed_bare hr) with ⟨hnone,-⟩ | ⟨size',align',hsome,heq'⟩
      · exact nomatch hnone.symm.trans hd'
      · obtain ⟨rfl,rfl⟩ := demand_unique hd' hsome
        exact heq'
    obtain ⟨hpow,hsize⟩ := demand_typed hr hd
    have hend := rawInner_end h hs hpow hsize r.fallible
    rw [heq] at hgrew ⊢
    rw [heq']
    cases hraw : A.rawInner r.fallible sys size align with
    | mk ret A₁ =>
    rw [hraw] at hend hgrew
    rcases rawEnd_cases h hpow hend with ⟨p,rfl,hcarved⟩ | ⟨hret,hunmoved⟩
    · obtain ⟨harena,-,hwrote⟩ := filled_bare r.kind p A₁
      rw [hcarved.registry] at harena
      exact ⟨harena,rfl,hwrote⟩
    · have hstill : (onRaw (ret,A₁) size align r.kind.lost r.kind.filled).arena = A₁ := by
        cases ret with
        | ptr p => exact absurd rfl (hret p)
        | none => rfl
        | panic message => rfl
      rw [hstill, hunmoved.registry] at hgrew
      exact absurd hgrew (Nat.lt_irrefl _)

theorem txn_bare (h : Wf A) (hs : Grants sys A.blocks) (hr : r.Typed) (t : Transaction)
    (hgrew : A.dropRegistry.len < (t.serve sys A r).arena.dropRegistry.len) :
    SameRegion A.dropRegistry (t.serve sys A r) (t.serve sys A (bare r)) := by
  rcases txn_serve t sys A r with ⟨⟨hoffered,hok⟩,heq⟩ | ⟨-,ret,-,lost,heq⟩
  · rw [heq] at hgrew ⊢
    rcases txn_serve t sys A (bare r) with ⟨-,heq'⟩ | ⟨hno,-⟩
    · rw [heq']
      exact serve_bare h hs hr hgrew
    · refine absurd ⟨(offered_bare r).trans hoffered,?_⟩ hno
      change t.budgetOk A (payload (bareKind r.kind)) = true
      rw [payload_bare]
      exact hok
  · rw [heq] at hgrew
    exact absurd hgrew (Nat.lt_irrefl _)

theorem reply_bare (h : Inv w) {op : Op} (hop : Honest w op) {o : Outcome}
    (ho : reply w op = some o) (hgrew : w.arena.dropRegistry.len < o.arena.dropRegistry.len) :
    ∃ o', reply w (bareOp op) = some o' ∧ SameRegion w.arena.dropRegistry o o' := by
  cases op with
  | request sys r =>
    obtain rfl := Option.some.inj ho
    exact ⟨_,rfl,serve_bare h.wf hop.1 hop.2 hgrew⟩
  | guarded sys r =>
    obtain ⟨f,hf,rfl⟩ := Option.map_eq_some_iff.mp ho
    exact ⟨_,Option.map_eq_some_iff.mpr ⟨f,hf,rfl⟩,txn_bare h.wf hop.1 hop.2 f.txn hgrew⟩
  | _ => cases ho

end bare

section steps
variable {slot : Ty} {w : World} {c : Call}

theorem step_reply {op : Op} {o : Outcome} (ho : reply w op = some o) : w.step op = w.take o := by
  cases op with
  | request sys r =>
    obtain rfl := Option.some.inj ho
    rfl
  | guarded sys r =>
    obtain ⟨f,hf,rfl⟩ := Option.map_eq_some_iff.mp ho
    obtain ⟨rest,hopened⟩ := List.head?_eq_some_iff.mp hf
    simp only [World.step, hopened]
  | _ => cases ho

theorem refusal_some {sys : SystemAlloc} {r : DropRegistry} {o : Outcome} {message : String}
    (h : refusal slot sys r o = some message) : r.len < o.arena.dropRegistry.len :=
  (Option.ite_none_right_eq_some.mp h).1

theorem registering_refused {sys : SystemAlloc} {r : DropRegistry} {o : Outcome} {message : String}
    (h : refusal slot sys r o = some message) : registering slot sys r o = leaving r message o := by
  unfold registering
  rw [h]

theorem take_leaving {r : DropRegistry} {o o' : Outcome} (message : String)
    (h : SameRegion r o o') : w.take (leaving r message o) = w.take o' := by
  obtain ⟨harena,hcarved,hwrote⟩ := h
  unfold World.take World.grantOf leaving
  rw [harena, hcarved, hwrote]

/-- A refused registration leaves what the call for a value without destructor leaves. -/
theorem step_refused (h : Inv w) (hop : Honest w c.1) (hrefused : Refused slot w c) :
    step slot w c = w.step (bareOp c.1) := by
  obtain ⟨o,ho,hsome⟩ := hrefused
  obtain ⟨message,hmessage⟩ := Option.isSome_iff_exists.mp hsome
  obtain ⟨o',ho',hsame⟩ := reply_bare h hop ho (refusal_some hmessage)
  have hanswered : answered slot w c = some (registering slot c.2 w.arena.dropRegistry o) :=
    congrArg (Option.map _) ho
  unfold step
  rw [hanswered, step_reply ho', registering_refused hmessage]
  exact take_leaving message hsame

theorem answered_granted (h : ¬ Refused slot w c) : answered slot w c = reply w c.1 := by
  unfold answered
  cases ho : reply w c.1 with
  | none => rfl
  | some o =>
    have hnone : refusal slot c.2 w.arena.dropRegistry o = none := by
      cases hrefusal : refusal slot c.2 w.arena.dropRegistry o with
      | none => rfl
      | some message => exact absurd ⟨o,ho,by rw [hrefusal]; rfl⟩ h
    dsimp only [Option.map_some]
    unfold registering
    rw [hnone]

theorem step_granted (h : ¬ Refused slot w c) : step slot w c = w.step c.1 := by
  unfold step
  rw [answered_granted h]
  cases ho : reply w c.1 with
  | none => rfl
  | some o => exact (step_reply ho).symm

def HonestCall (w : World) (c : Call) : Prop := Honest w c.1

theorem step_asIf (h : Inv w) (hc : HonestCall w c) :
    step slot w c = w.step (if Refused slot w c then bareOp c.1 else c.1) := by
  by_cases hrefused : Refused slot w c
  · rw [if_pos hrefused]
    exact step_refused h hc hrefused
  · rw [if_neg hrefused]
    exact step_granted hrefused

theorem honest_asIf (hc : HonestCall w c) :
    Honest w (if Refused slot w c then bareOp c.1 else c.1) := by
  split
  · exact honest_bare hc
  · exact hc

theorem inv_call (h : Inv w) (hc : HonestCall w c) : Inv (step slot w c) := by
  rw [step_asIf h hc]
  exact inv_step h (honest_asIf hc)

theorem run_asIf (h : Inv w) (cs : List Call) (hcs : Along (step slot) HonestCall w cs) :
    Along World.step Honest w (asIf slot w cs) ∧
      run (step slot) w cs = run World.step w (asIf slot w cs) := by
  induction cs generalizing w with
  | nil => exact ⟨trivial,rfl⟩
  | cons c cs ih =>
    obtain ⟨hc,hrest⟩ := hcs
    have hop : Honest w (if Refused slot w c then bareOp c.1 else c.1) := honest_asIf hc
    have hstep : step slot w c = _ := step_asIf h hc
    have hinv : Inv (step slot w c) := inv_call h hc
    obtain ⟨halong,hrun⟩ := ih hinv hrest
    refine ⟨⟨hop,?_⟩,?_⟩
    · rw [← hstep]
      exact halong
    · change run (step slot) (step slot w c) cs = run World.step (w.step _) _
      rw [← hstep]
      exact hrun

end steps

def Visited (slot : Ty) (w : World) : Prop :=
  ∃ sys feature initialBytes A cs, Grants sys (InlineVec.new : Blocks) ∧
    Arena.withCapacity sys feature initialBytes = some A ∧
    Along (step slot) HonestCall (World.start A) cs ∧ w = run (step slot) (World.start A) cs

/-- A run on which registrations are refused is a run on which none is, of the same calls with the
values that could not be registered as values without destructors. -/
theorem refusals_unseen (slot : Ty) {sys : SystemAlloc} {feature : Bool} {initialBytes : ℕ}
    {A : Arena} (hs : Grants sys (InlineVec.new : Blocks))
    (hA : Arena.withCapacity sys feature initialBytes = some A) {cs : List Call}
    (hcs : Along (step slot) HonestCall (World.start A) cs) :
    Along World.step Honest (World.start A) (asIf slot (World.start A) cs) ∧
      run (step slot) (World.start A) cs =
        run World.step (World.start A) (asIf slot (World.start A) cs) := by
  obtain ⟨hwf,-,-,-,-,hregistry⟩ := wf_withCapacity hs hA
  exact run_asIf (inv_start hwf (by rw [hregistry, DropRegistry.entries_new])) cs hcs

def fourWords : Ty := ⟨32,8,false,eightBytes.align_pow,⟨4,rfl⟩,by norm_num⟩

def valueCall : Call := (.request noMemory ⟨.value eightBytes,true⟩,noMemory)

theorem honest_values (n : ℕ) (w : World) :
    Along (step fourWords) HonestCall w (List.replicate n valueCall) := by
  induction n generalizing w with
  | zero => trivial
  | succ n ih => exact ⟨⟨grants_noMemory _,trivial⟩,ih _⟩

def leakingCalls : List Call :=
  List.replicate 33 valueCall ++ [(.reset quiet,noMemory)]

theorem refusals_unseen_leakingCalls : ∃ A, smallArena true 512 = some A ∧
    run (step fourWords) (World.start A) leakingCalls =
      run World.step (World.start A) (asIf fourWords (World.start A) leakingCalls) ∧
    (run (step fourWords) (World.start A) leakingCalls).drops.length = 32 := by
  obtain ⟨A,hA⟩ : ∃ A, smallArena true 512 = some A := ⟨_,rfl⟩
  have hcs : Along (step fourWords) HonestCall (World.start A) leakingCalls :=
    (along_append _ _ _ _ _).mpr ⟨honest_values 33 _,trivial,trivial⟩
  refine ⟨A,hA,(refusals_unseen fourWords (grants_small (by norm_num)) hA hcs).2,?_⟩
  cases hA
  decide +kernel

theorem reached_visited {slot : Ty} {w : World} (h : Visited slot w) : Reached Honest w := by
  obtain ⟨sys,feature,initialBytes,A,cs,hs,hA,hcs,rfl⟩ := h
  obtain ⟨hwf,-,-,-,-,hregistry⟩ := wf_withCapacity hs hA
  have hinv := inv_start hwf (by rw [hregistry, DropRegistry.entries_new])
  obtain ⟨halong,hrun⟩ := run_asIf hinv cs hcs
  exact ⟨sys,feature,initialBytes,A,_,hs,hA,halong,hrun⟩

/-- A refused registration: the call panics, its region is handed out with nothing to destroy, and
whatever is called afterwards, the value there is never destroyed. -/
structure Leaked (slot : Ty) (w : World) (c : Call) : Prop where
  panics : ∃ o message, answered slot w c = some o ∧ o.ret = .panic message
  full : dropInlineCap ≤ w.arena.dropRegistry.len
  registry_eq : (step slot w c).arena.dropRegistry = w.arena.dropRegistry
  taken : ∃ g, (step slot w c).live = g :: w.live ∧ g.stamp = w.clock ∧ g.owes = []
  never : ∀ cs, Along (step slot) HonestCall (step slot w c) cs →
    runs (run (step slot) (step slot w c) cs) w.clock = 0

section leaked
variable {slot : Ty} {w : World} {c : Call}

theorem reply_carved (h : Inv w) {op : Op} (hop : Honest w op) {o : Outcome}
    (ho : reply w op = some o) (hgrew : w.arena.dropRegistry.len < o.arena.dropRegistry.len) :
    ∃ region, o.carved = some region := by
  have hserved : ∀ {sys r}, Served sys w.arena r o → ∃ region, o.carved = some region := by
    intro sys r hserved
    cases hserved with
    | carved _ _ _ _ hcarve _ => exact ⟨_,hcarve⟩
    | failed _ _ _ _ hunmoved =>
      change _ < (answer _ _ _).arena.dropRegistry.len at hgrew
      unfold answer at hgrew
      dsimp only at hgrew
      rw [hunmoved.registry] at hgrew
      exact absurd hgrew (Nat.lt_irrefl _)
    | answered _ => exact absurd hgrew (Nat.lt_irrefl _)
  cases op with
  | request sys r =>
    obtain rfl := Option.some.inj ho
    exact hserved (serve_served h.wf hop.1 hop.2)
  | guarded sys r =>
    obtain ⟨f,hf,rfl⟩ := Option.map_eq_some_iff.mp ho
    rcases txn_served h.wf hop.1 hop.2 f.txn with hcall | ⟨ret,-,lost,heq⟩
    · exact hserved hcall
    · rw [heq] at hgrew
      exact absurd hgrew (Nat.lt_irrefl _)
  | _ => cases ho

/-- The registry's list is only refused a buffer when it is full, past its inline room. -/
theorem registerPanic_full {sys : SystemAlloc} {r : DropRegistry} {message : String}
    (h : registerPanic slot sys r = some message) : dropInlineCap ≤ r.len := by
  cases r with
  | off => cases h
  | tracking slots =>
    have hwf := slots.wf
    change HeapBuffer.pushPanic dropInlineCap sys slot slots.raw = some message at h
    rw [InlineRefinement.pushPanic_full hwf] at h
    obtain ⟨hfull,-⟩ := Option.ite_none_right_eq_some.mp h
    change dropInlineCap ≤ slots.raw.len
    rw [hfull, InlineRefinement.capacity_cells hwf]
    cases hheap : slots.raw.onHeap with
    | false => exact (hwf.inlineRoom hheap).ge
    | true => exact (hwf.heapRoom hheap).le

theorem taken_leaving {o : Outcome} {region : Region} (hcarve : o.carved = some region)
    (message : String) :
    (∃ g, (w.take (leaving w.arena.dropRegistry message o)).live = g :: w.live ∧
      g.stamp = w.clock ∧ g.owes = []) ∧
      (w.take (leaving w.arena.dropRegistry message o)).owners = w.owners := by
  unfold World.take World.grantOf leaving
  dsimp only
  constructor
  · rw [hcarve]
    refine ⟨_,rfl,rfl,?_⟩
    dsimp only
    rw [DropRegistry.len_entries, List.drop_length]
  · rw [Nat.sub_self, List.replicate_zero, List.append_nil]

/-- In every run, a call whose registration is refused panics, in the fallible forms as well, and
leaks the value: it is in its region, the registry is as it was, and no later call destroys it. -/
theorem refused_leaked (h : Visited slot w) (hc : HonestCall w c) (hrefused : Refused slot w c) :
    Leaked slot w c := by
  obtain ⟨hinv,hdated⟩ := dated_reached (reached_visited h)
  have hinv' : Inv (step slot w c) := inv_call hinv hc
  obtain ⟨o,ho,hsome⟩ := hrefused
  obtain ⟨message,hmessage⟩ := Option.isSome_iff_exists.mp hsome
  obtain ⟨region,hcarve⟩ := reply_carved hinv hc ho (refusal_some hmessage)
  have hanswered : answered slot w c = some (leaving w.arena.dropRegistry message o) := by
    rw [← registering_refused hmessage]
    exact congrArg (Option.map _) ho
  have hstep : step slot w c = w.take (leaving w.arena.dropRegistry message o) := by
    unfold step
    rw [hanswered]
  obtain ⟨htaken,howners⟩ := taken_leaving (w := w) hcarve message
  refine ⟨⟨_,message,hanswered,rfl⟩,?_,?_,?_,?_⟩
  · exact registerPanic_full (Option.ite_none_right_eq_some.mp hmessage).2
  · rw [hstep]
    rfl
  · rw [hstep]
    exact htaken
  · intro cs hcs
    have hgone : Gone w.clock 0 (step slot w c) := by
      rw [hstep]
      exact gone_next hdated rfl howners rfl
    obtain ⟨halong,hrun⟩ := run_asIf hinv' cs hcs
    rw [hrun]
    exact gone_run hinv' hgone _ halong

end leaked

theorem refused_leaked_value : ∃ A, smallArena true 512 = some A ∧
    ∃ w, w = run (step fourWords) (World.start A) (List.replicate 32 valueCall) ∧
      Leaked fourWords w valueCall := by
  obtain ⟨A,hA⟩ : ∃ A, smallArena true 512 = some A := ⟨_,rfl⟩
  have hvisited : Visited fourWords
      (run (step fourWords) (World.start A) (List.replicate 32 valueCall)) :=
    ⟨_,true,512,A,_,grants_small (by norm_num),hA,honest_values 32 _,rfl⟩
  have hrefused : Refused fourWords
      (run (step fourWords) (World.start A) (List.replicate 32 valueCall)) valueCall := by
    cases hA
    decide +kernel
  exact ⟨A,hA,_,rfl,refused_leaked hvisited ⟨grants_noMemory _,trivial⟩ hrefused⟩

end FastArena.RegistryBuffer
