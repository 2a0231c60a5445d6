import FastArena.BoxDrops
import FastArena.FullDrain

/-!
# Calls made again

A destructor's panic leaves a rewind, a reset or a rollback half done: the entries
are gone and the memory is not taken back. The same call made again finds nothing to
destroy and takes the memory back. A program that makes interrupted calls again
cannot tell that any of them panicked, but for the destructors that were cut short:
those of the elements behind one that panicked, in the same slice.
-/

set_option autoImplicit false

namespace FastArena.Recovery
open FastArena.MachineWord FastArena.ByteSpan FastArena.ArenaBlock FastArena.InlineStorage
  FastArena.DropTracking FastArena.ArenaCore FastArena.ArenaInvariant FastArena.RawRequest
  FastArena.ArenaSweep FastArena.ArenaRequests FastArena.ArenaTransaction FastArena.LabelledRun
  FastArena.ArenaWorld FastArena.ArenaSteps FastArena.DropOrder FastArena.BoxDrops
  FastArena.FullDrain

def repeated (again : Arena → Swept) (s : Swept) : Swept :=
  match s.panic with
  | none => s
  | some _ => ⟨s.calls ++ (again s.arena).calls,(again s.arena).arena,(again s.arena).panic⟩

def rewinding (boom : ℕ → ℕ → Bool) (cp : Checkpoint) (A : Arena) : Swept :=
  repeated (fun A => A.rewind boom cp) (A.rewind boom cp)

def resetting (boom : ℕ → ℕ → Bool) (A : Arena) : Swept :=
  repeated (fun A => A.reset boom) (A.reset boom)

-- A rollback consumes its guard: what is made again is the rewind to its checkpoint.
def rollingBack (boom : ℕ → ℕ → Bool) (t : Transaction) (A : Arena) : Swept :=
  repeated (fun A => A.rewind boom t.checkpoint) (t.drop boom A)

def step (w : World) : Op → World
  | .rewind boom stamp =>
    match w.markAt stamp with
    | none => w.tick
    | some m => w.sweep (rewinding boom m.cp w.arena) m.stamp
  | .reset boom => w.sweep (resetting boom w.arena) 0
  | .rollback boom =>
    match w.opened with
    | [] => w.tick
    | f::rest => { w.sweep (rollingBack boom f.txn w.arena) f.stamp with opened := rest }
  | op => w.step op

def ending (w : World) : Op → Option String
  | .rewind boom stamp => (w.markAt stamp).bind (fun m => (rewinding boom m.cp w.arena).panic)
  | .reset boom => (resetting boom w.arena).panic
  | .rollback boom => w.opened.head?.bind (fun f => (rollingBack boom f.txn w.arena).panic)
  | _ => none

def calm : Op → Op
  | .rewind _ stamp => .rewind quiet stamp
  | .reset _ => .reset quiet
  | .rollback _ => .rollback quiet
  | op => op

/-- The element is behind one that panics: both belong to one entry, which this call runs. -/
def Behind (w : World) (op : Op) (d : Drop) : Prop :=
  d.time = w.clock ∧ ∃ i < w.owners.length, w.owners[i]? = some d.owner ∧
    ∃ e < d.elem, oracle op i e = true

/-- On the way of the calm calls, the element is behind one that would have panicked. -/
def CutShort : World → List Op → Drop → Prop
  | _, [], _ => False
  | w, op::ops, d => Behind w op d ∨ CutShort (w.step (calm op)) ops d

instance (w : World) (op : Op) (d : Drop) : Decidable (Behind w op d) :=
  inferInstanceAs (Decidable (_ ∧ _))

instance decidableCutShort : (w : World) → (ops : List Op) → (d : Drop) →
    Decidable (CutShort w ops d)
  | _, [], _ => inferInstanceAs (Decidable False)
  | w, op::ops, d =>
    have := decidableCutShort (w.step (calm op)) ops d
    inferInstanceAs (Decidable (Behind w op d ∨ CutShort (w.step (calm op)) ops d))

section drains
variable (boom : ℕ → ℕ → Bool) (target : ℕ)

theorem drainLoop_fuel (fuel : ℕ) (slots : Slots) (h : slots.len ≤ fuel) :
    (drainLoop boom target fuel slots).2 = (drainRemaining quiet target slots).2 := by
  unfold drainRemaining
  induction fuel generalizing slots with
  | zero =>
    rw [Nat.le_zero.mp h]
    rfl
  | succ fuel ih =>
    by_cases hmore : slots.len > target
    · have hpop : slots.pop.2.len = slots.len-1 := InlineVec.len_pop _
      obtain ⟨n,hn⟩ : ∃ n, slots.len = n+1 := ⟨slots.len-1,by omega⟩
      rw [hn] at hpop ⊢
      simp only [drainLoop, hmore, if_true]
      rw [ih _ (by omega), hpop]
      rfl
    · have hdone : ∀ (b : ℕ → ℕ → Bool) n, (drainLoop b target n slots).2 = slots := by
        intro b n
        cases n with
        | zero => rfl
        | succ n => simp only [drainLoop, hmore, if_false]
      rw [hdone, hdone]

theorem runLoop_slots (fuel : ℕ) (slots : Slots) (h : slots.len ≤ fuel) :
    (runLoop boom target fuel slots).2.1 = (drainRemaining quiet target slots).2 := by
  induction fuel generalizing slots with
  | zero => exact drainLoop_fuel boom target 0 slots h
  | succ fuel ih =>
    have hdrain := drainLoop_fuel boom target (fuel+1) slots h
    by_cases hmore : slots.len > target
    · have hlen : slots.pop.2.len ≤ fuel := by rw [InlineVec.len_pop]; omega
      simp only [drainLoop, hmore, if_true] at hdrain
      rw [← hdrain, drainLoop_fuel boom target fuel _ hlen]
      simp only [runLoop, hmore, if_true]
      split
      · exact drainLoop_fuel boom target _ _ (le_refl _)
      · exact ih _ hlen
    · simp only [drainLoop, hmore, if_false] at hdrain
      simp only [runLoop, hmore, if_false]
      exact hdrain

theorem registry_runDropsUntil (r : DropRegistry) :
    (r.runDropsUntil boom target).2.1 = (r.runDropsUntil quiet target).2.1 := by
  cases r with
  | tracking slots =>
    unfold DropRegistry.runDropsUntil
    dsimp only
    rw [runLoop_slots boom target _ _ (le_refl _), runLoop_slots quiet target _ _ (le_refl _)]
  | off => rfl

/-- A registry cut down to a length has nothing more to run down to it. -/
theorem runDropsUntil_again (r : DropRegistry) :
    (r.runDropsUntil boom target).2.1.runDropsUntil boom target =
      ([],(r.runDropsUntil quiet target).2.1,false) := by
  rw [← registry_runDropsUntil boom target r]
  have hlen : (r.runDropsUntil boom target).2.1.len ≤ target := by
    rw [DropRegistry.len_entries, DropRegistry.entries_runDropsUntil, List.length_take]
    exact Nat.min_le_left _ _
  generalize (r.runDropsUntil boom target).2.1 = left at hlen
  cases left with
  | tracking slots =>
    have hmore : ¬slots.len > target := Nat.not_lt.mpr hlen
    have hdone : ∀ n, runLoop boom target n slots = ([],slots,false) := by
      intro n
      cases n with
      | zero => rfl
      | succ n => simp only [runLoop, hmore, if_false]
    unfold DropRegistry.runDropsUntil
    dsimp only
    rw [hdone]
  | off => rfl

end drains

section repeated
variable {A : Arena} {cp : Checkpoint} (boom : ℕ → ℕ → Bool)

structure Through (boom : ℕ → ℕ → Bool) (A : Arena) (s normal : Swept) : Prop where
  arena_eq : s.arena = normal.arena
  calls : ∃ target, normal.calls = callsUntil quiet target A.dropRegistry.entries ∧
    s.calls = callsUntil boom target A.dropRegistry.entries
  panic_eq : s.panic = none
  normal_eq : normal.panic = none

theorem calls_both (target : ℕ) (r : DropRegistry) : ∃ target',
    (r.runDropsUntil quiet target).1 = callsUntil quiet target' r.entries ∧
      (r.runDropsUntil boom target).1 = callsUntil boom target' r.entries :=
  ⟨target,DropRegistry.calls_runDropsUntil _ _ _,DropRegistry.calls_runDropsUntil _ _ _⟩

theorem through_rewinding (hidx : cp.blockIdx < A.blocks.len) :
    Through boom A (rewinding boom cp A) (A.rewind quiet cp) := by
  have hsame := registry_runDropsUntil boom cp.dropRegistryLen A.dropRegistry
  have hagain := runDropsUntil_again boom cp.dropRegistryLen A.dropRegistry
  have hcalls := calls_both boom cp.dropRegistryLen A.dropRegistry
  unfold rewinding repeated Arena.rewind
  simp only [hidx, if_true, DropRegistry.panicked_runDropsUntil_quiet, Bool.false_eq_true, if_false]
  cases hpanic : (A.dropRegistry.runDropsUntil boom cp.dropRegistryLen).2.2 with
  | false =>
    rw [hsame]
    exact ⟨rfl,hcalls,rfl,rfl⟩
  | true =>
    simp only [if_true, hidx, hagain, List.append_nil, Bool.false_eq_true, if_false]
    exact ⟨rfl,hcalls,rfl,rfl⟩

theorem through_resetting : Through boom A (resetting boom A) (A.reset quiet) := by
  have hsame := registry_runDropsUntil boom 0 A.dropRegistry
  have hagain := runDropsUntil_again boom 0 A.dropRegistry
  have hcalls := calls_both boom 0 A.dropRegistry
  unfold resetting repeated Arena.reset DropRegistry.runAllDrops
  simp only [DropRegistry.panicked_runDropsUntil_quiet, Bool.false_eq_true, if_false]
  cases hpanic : (A.dropRegistry.runDropsUntil boom 0).2.2 with
  | false =>
    rw [hsame]
    exact ⟨rfl,hcalls,rfl,rfl⟩
  | true =>
    simp only [if_true, hagain, List.append_nil, Bool.false_eq_true, if_false]
    exact ⟨rfl,hcalls,rfl,rfl⟩

theorem through_rollingBack {w : World} (h : Inv w) {f : Open} (hf : f ∈ w.opened) :
    Through boom w.arena (rollingBack boom f.txn w.arena) (f.txn.drop quiet w.arena) := by
  unfold rollingBack
  rw [drop_eq h hf, drop_eq h hf]
  have hidx : f.txn.checkpoint.blockIdx < w.arena.blocks.len :=
    (h.recallable _ (h.opened f hf).1).idx_lt
  have hthrough := @through_rewinding { w.arena with txnDepth := w.arena.txnDepth-1 }
    f.txn.checkpoint boom hidx
  exact ⟨hthrough.arena_eq,hthrough.calls,hthrough.panic_eq,hthrough.normal_eq⟩

end repeated

def Calmed (w w' : World) : Prop := { w with drops := w'.drops } = w'

/-- The calm call adds these destructor calls, and the other one those not cut short. -/
structure Trimmed (w w' : World) (op : Op) (next next' : World) : Prop where
  calmed : Calmed next next'
  drops : ∃ new, next'.drops = w'.drops ++ new ∧
    next.drops = w.drops ++ new.filter (fun d => ¬ Behind w' op d) ∧
      ∀ d ∈ new, d.time = w'.clock

section calmed
variable {w w' : World}

theorem trimmed_none {op : Op} {next next' : World} (h : Calmed next next')
    (hdrops : next.drops = w.drops) (hdrops' : next'.drops = w'.drops) :
    Trimmed w w' op next next' :=
  ⟨h,[],hdrops'.trans (List.append_nil _).symm,hdrops.trans (List.append_nil _).symm,List.forall_mem_nil _⟩

/-- Owners tell entries apart, so what is cut short is told by the record. -/
theorem behind_iff (hinv : Inv w) (hdistinct : w.owners.Nodup) {op : Op} {target : ℕ}
    {c : DropCall} (hc : c ∈ callsUntil quiet target w.arena.dropRegistry.entries) :
    Behind w op ⟨w.clock,w.owners.getD c.entry 0,c.elem,c.slot⟩ ↔
      ∃ e < c.elem, oracle op c.entry e = true := by
  have howner := call_owner hinv hc
  have hlt := (List.getElem?_eq_some_iff.mp howner).1
  constructor
  · rintro ⟨-,i,hi,hget,hboom⟩
    obtain rfl : i = c.entry := (List.getElem?_inj hi hdistinct).mp (hget.trans howner.symm)
    exact hboom
  · exact fun hboom => ⟨rfl,c.entry,hlt,howner,hboom⟩

theorem trimmed_sweep {op : Op} {s normal : Swept}
    (hthrough : Through (oracle op) w.arena s normal) {ds : List Drop}
    (hinv : Inv { w with drops := ds }) (hdistinct : w.owners.Nodup) (since : ℕ)
    (opened : List Open) :
    Trimmed w { w with drops := ds } op { w.sweep s since with opened := opened }
      { World.sweep { w with drops := ds } normal since with opened := opened } := by
  obtain ⟨harena,⟨target,hnormal,hcalls⟩,hpanic,hquiet⟩ := hthrough
  refine ⟨?_,normal.calls.map (fun c => ⟨w.clock,w.owners.getD c.entry 0,c.elem,c.slot⟩),rfl,?_,?_⟩
  · unfold Calmed World.sweep
    dsimp only
    rw [harena, hpanic, hquiet]
  · change w.drops ++ s.calls.map _ = w.drops ++ _
    rw [hcalls, hnormal, callsUntil_filter, List.filter_map]
    refine congrArg (w.drops ++ List.map _ ·) (List.filter_congr ?_)
    intro c hc
    have hiff := @behind_iff { w with drops := ds } hinv hdistinct op target c hc
    dsimp only [Function.comp] at hiff ⊢
    rw [decide_eq_decide, hiff]
    simp
  · intro d hd
    obtain ⟨c,-,rfl⟩ := List.mem_map.mp hd
    rfl

theorem trimmed_step (h : Calmed w w') (hinv : Inv w') (hdistinct : w'.owners.Nodup) (op : Op) :
    Trimmed w w' op (step w op) (w'.step (calm op)) := by
  obtain ⟨ds,rfl⟩ : ∃ ds, w' = { w with drops := ds } := ⟨_,h.symm⟩
  cases op with
  | request sys r => exact trimmed_none rfl rfl rfl
  | checkpoint => exact trimmed_none rfl rfl rfl
  | begin => exact trimmed_none rfl rfl rfl
  | guarded sys r =>
    obtain ⟨A,clock,live,issued,marks,valid,opened,owners,drops⟩ := w
    cases opened with
    | nil => exact trimmed_none rfl rfl rfl
    | cons f rest => exact trimmed_none rfl rfl rfl
  | commit =>
    obtain ⟨A,clock,live,issued,marks,valid,opened,owners,drops⟩ := w
    cases opened with
    | nil => exact trimmed_none rfl rfl rfl
    | cons f rest => exact trimmed_none rfl rfl rfl
  | setLimit bytes =>
    obtain ⟨A,clock,live,issued,marks,valid,opened,owners,drops⟩ := w
    cases opened with
    | nil => exact trimmed_none rfl rfl rfl
    | cons f rest => exact trimmed_none rfl rfl rfl
  | rewind boom stamp =>
    unfold step World.step calm World.markAt
    dsimp only
    cases hfound : w.marks.find? (fun m => m.stamp = stamp) with
    | none => exact trimmed_none rfl rfl rfl
    | some m =>
      have hidx := (hinv.recallable m (List.mem_of_find?_eq_some hfound)).idx_lt
      exact @trimmed_sweep w (.rewind boom stamp) _ _ (through_rewinding boom hidx) _ hinv
        hdistinct m.stamp w.opened
  | reset boom =>
    exact @trimmed_sweep w (.reset boom) _ _ (through_resetting boom) _ hinv hdistinct 0 w.opened
  | rollback boom =>
    obtain ⟨A,clock,live,issued,marks,valid,opened,owners,drops⟩ := w
    cases opened with
    | nil => exact trimmed_none rfl rfl rfl
    | cons f rest =>
      have hthrough := through_rollingBack boom hinv (List.mem_cons_self (a := f) (l := rest))
      exact @trimmed_sweep ⟨A,clock,live,issued,marks,valid,f::rest,owners,drops⟩
        (.rollback boom) _ _ hthrough _ hinv hdistinct f.stamp rest

theorem honest_calm (h : Calmed w w') {op : Op} (hop : Honest w op) : Honest w' (calm op) := by
  obtain ⟨ds,rfl⟩ : ∃ ds, w' = { w with drops := ds } := ⟨_,h.symm⟩
  cases op with
  | request sys r => exact hop
  | guarded sys r => exact hop
  | _ => trivial

theorem ending_none (h : Calmed w w') (hinv : Inv w') (op : Op) : ending w op = none := by
  obtain ⟨ds,rfl⟩ : ∃ ds, w' = { w with drops := ds } := ⟨_,h.symm⟩
  cases op with
  | rewind boom stamp =>
    apply Option.bind_eq_none_iff.mpr
    intro m hfound
    have hidx := (hinv.recallable m (List.mem_of_find?_eq_some hfound)).idx_lt
    exact (through_rewinding boom hidx).panic_eq
  | reset boom => exact (through_resetting boom).panic_eq
  | rollback boom =>
    apply Option.bind_eq_none_iff.mpr
    intro f hf
    exact (through_rollingBack boom hinv (List.mem_of_mem_head? hf)).panic_eq
  | _ => rfl

theorem not_cutShort (ops : List Op) {d : Drop} (hpast : d.time < w.clock) :
    ¬ CutShort w ops d := by
  induction ops generalizing w with
  | nil => exact id
  | cons op ops ih =>
    rintro (hbehind | hlater)
    · exact absurd hbehind.1 (Nat.ne_of_lt hpast)
    · exact ih (w := w.step (calm op)) (by rw [clock_step]; omega) hlater

/-- Of the destructor calls of the calm run those are missing that were cut short. -/
theorem trimmed_run (h : Calmed w w') (hinv : Inv w') (hdated : Dated w')
    (hdistinct : w'.owners.Nodup) (ops : List Op) (halong : Along step Honest w ops) :
    Along World.step Honest w' (ops.map calm) ∧
      Calmed (run step w ops) (run World.step w' (ops.map calm)) ∧
      ∃ new, (run World.step w' (ops.map calm)).drops = w'.drops ++ new ∧
        (run step w ops).drops = w.drops ++ new.filter (fun d => ¬ CutShort w' ops d) ∧
          ∀ d ∈ new, w'.clock ≤ d.time := by
  induction ops generalizing w w' with
  | nil => exact ⟨trivial,h,[],(List.append_nil _).symm,(List.append_nil _).symm,List.forall_mem_nil _⟩
  | cons op ops ih =>
    have hop := honest_calm h halong.1
    have hturn := turn hinv hop
    obtain ⟨hcalmed,new,hnew',hnew,htime⟩ := trimmed_step h hinv hdistinct op
    obtain ⟨hrest,hend,later,hlater',hlater,hafter⟩ := ih hcalmed (inv_step hinv hop)
      (dated_turn hinv hdated hturn) (nodup_turn hdated hdistinct hturn) halong.2
    refine ⟨⟨hop,hrest⟩,hend,new++later,?_,?_,?_⟩
    · change (run World.step (w'.step (calm op)) (ops.map calm)).drops = _
      rw [hlater', hnew', List.append_assoc]
    · change (run step (step w op) ops).drops = _
      rw [hlater, hnew, List.append_assoc, List.filter_append]
      refine congrArg (w.drops ++ ·) (congrArg₂ (· ++ ·) (List.filter_congr ?_)
        (List.filter_congr ?_))
      · intro d hd
        have hnot : ¬ CutShort (w'.step (calm op)) ops d :=
          not_cutShort ops (by rw [clock_step, htime d hd]; exact Nat.lt_succ_self _)
        rw [decide_eq_decide]
        exact not_congr (or_iff_left hnot).symm
      · intro d hd
        have hbehind : ¬ Behind w' op d := by
          rintro ⟨hnow,-⟩
          have hle := hafter d hd
          rw [clock_step] at hle
          omega
        rw [decide_eq_decide]
        exact not_congr (or_iff_right hbehind).symm
    · intro d hd
      rcases List.mem_append.mp hd with hd | hd
      · exact (htime d hd).ge
      · have hle := hafter d hd
        rw [clock_step] at hle
        omega

end calmed

section recovery
variable {sys : SystemAlloc} {feature : Bool} {initialBytes : ℕ} {A : Arena} {ops : List Op}

/-- When interrupted calls are made again, panicking destructors cannot be told from calm ones by
anything that the arena does: the second call comes through, and the world is the one that the same
calls lead to when nothing panics. Of the destructor calls of that calm run just those are missing
that are for elements behind one that panicked, in the same slice. -/
theorem panics_unseen (hs : Grants sys (InlineVec.new : Blocks))
    (hA : Arena.withCapacity sys feature initialBytes = some A)
    (halong : Along step Honest (World.start A) ops) :
    ∃ w', w' = run World.step (World.start A) (ops.map calm) ∧ Reached Honest w' ∧
      { run step (World.start A) ops with drops := w'.drops } = w' ∧
      (run step (World.start A) ops).drops =
        w'.drops.filter (fun d => ¬ CutShort (World.start A) ops d) ∧
      ∀ op, ending (run step (World.start A) ops) op = none := by
  obtain ⟨hwf,-,-,-,-,hregistry⟩ := wf_withCapacity hs hA
  have hstart : Inv (World.start A) :=
    inv_start hwf (by rw [hregistry, DropRegistry.entries_new])
  have hsame : Calmed (World.start A) (World.start A) := rfl
  obtain ⟨hcalm,hend,new,hnew',hnew,-⟩ :=
    trimmed_run hsame hstart ⟨nofun,nofun⟩ List.nodup_nil ops halong
  have hreached : Reached Honest (run World.step (World.start A) (ops.map calm)) :=
    ⟨sys,feature,initialBytes,A,_,hs,hA,hcalm,rfl⟩
  refine ⟨_,rfl,hreached,hend,?_,
    fun op => ending_none hend (inv_reached (fun _ _ h => h) hreached) op⟩
  rw [hnew', hnew]
  rfl

end recovery

def interrupted : List Op :=
  [.checkpoint,.request noMemory ⟨.slice eightBytes 2 2,false⟩,.rewind (fun _ e => e = 0) 1,
    .request noMemory ⟨.value eightBytes,false⟩]

theorem panics_unseen_interrupted : ∃ A, smallArena true 64 = some A ∧
    ∃ w', w' = run World.step (World.start A) (interrupted.map calm) ∧
      { run step (World.start A) interrupted with drops := w'.drops } = w' ∧
      (run step (World.start A) interrupted).live.map (·.region.span) = [⟨4096,8⟩] ∧
      (run step (World.start A) interrupted).drops.length = 1 ∧ w'.drops.length = 2 ∧
      (run World.step (World.start A) interrupted).arena.checkpoint.offset = 24 := by
  obtain ⟨A,hA⟩ : ∃ A, smallArena true 64 = some A := ⟨_,rfl⟩
  have halong : Along step Honest (World.start A) interrupted :=
    ⟨trivial,⟨grants_noMemory _,show 2 < 2^64 by norm_num⟩,trivial,⟨grants_noMemory _,trivial⟩,
      trivial⟩
  obtain ⟨w',hw',-,hsame,-⟩ := panics_unseen (grants_small (by norm_num)) hA halong
  refine ⟨A,hA,w',hw',hsame,?_,?_,?_,?_⟩
  · cases hA
    decide +kernel
  · cases hA
    decide +kernel
  · subst hw'
    cases hA
    decide +kernel
  · cases hA
    decide +kernel

end FastArena.Recovery
