import FastArena.DropOrder

/-!
# Destructors of boxed values

A box is a pointer to a value the arena owns: dropping the box runs nothing,
and the arena destroys the value when its registry entry is reached. Reading
the value out leaves the entry where it is, so that the caller and the arena
both destroy the value; and a value without size was destroyed when it was put
in the box.
-/

set_option autoImplicit false

namespace FastArena.BoxDrops
open FastArena.MachineWord FastArena.ArenaBlock FastArena.InlineStorage FastArena.DropTracking
  FastArena.ArenaCore FastArena.ArenaInvariant FastArena.RawRequest FastArena.ArenaSweep
  FastArena.ArenaRequests FastArena.ArenaTransaction FastArena.LabelledRun FastArena.ArenaWorld
  FastArena.ArenaSteps FastArena.DropOrder

structure ArenaBox where
  ptr : ℕ
  ty : Ty

namespace ArenaBox

def new (sys : SystemAlloc) (A : Arena) (ty : Ty) : Option ArenaBox × Outcome :=
  let o := alloc sys A ty
  match o.ret with
  | .ptr p => (some ⟨p,ty⟩,o)
  | _ => (none,o)

def intoInner (b : ArenaBox) : ℕ := dropGlue b.ty

end ArenaBox

inductive Use where
  | moved
  | dropped
  | intoInner
  deriving DecidableEq

def Use.apply : Option ArenaBox → Use → Option ArenaBox × ℕ
  | none, _ => (none,0)
  | some b, .moved => (some b,0)
  | some _, .dropped => (none,0)
  | some b, .intoInner => (none,b.intoInner)

def usesRun : Option ArenaBox → List Use → ℕ
  | _, [] => 0
  | b, u::us => (u.apply b).2 + usesRun (u.apply b).1 us

def extracted : List Use → Bool
  | [] => false
  | .moved::us => extracted us
  | .dropped::_ => false
  | .intoInner::_ => true

theorem usesRun_none (us : List Use) : usesRun none us = 0 := by
  induction us with
  | nil => rfl
  | cons u us ih => exact (Nat.zero_add _).trans ih

theorem usesRun_some (b : ArenaBox) (us : List Use) :
    usesRun (some b) us = if extracted us then dropGlue b.ty else 0 := by
  induction us with
  | nil => rfl
  | cons u us ih =>
    cases u with
    | moved => exact (Nat.zero_add _).trans ih
    | dropped => exact (Nat.zero_add _).trans (usesRun_none us)
    | intoInner => exact congrArg (dropGlue b.ty + ·) (usesRun_none us)

def runs (w : World) (stamp : ℕ) : ℕ := w.drops.countP (·.owner = stamp)

/-- All runs of the destructor of a value: on its way into the box, by the uses of the box, and by
the arena during the calls that follow. -/
def destructions (w : World) (sys : SystemAlloc) (ty : Ty) (us : List Use) (ops : List Op) : ℕ :=
  let placed := ArenaBox.new sys w.arena ty
  placed.2.valueDrops + usesRun placed.1 us + runs (run World.step (w.take placed.2) ops) w.clock

def cutTo (w : World) : Op → Option ℕ
  | .rewind _ stamp => (w.markAt stamp).map (·.cp.dropRegistryLen)
  | .rollback _ => w.opened.head?.map (·.txn.checkpoint.dropRegistryLen)
  | .reset _ => some 0
  | _ => none

def Spares (k : ℕ) (w : World) (op : Op) : Prop := ∀ target, cutTo w op = some target → k < target

/-- The value is read out and destroyed elsewhere too: it has no size, or a later call reaches its
entry in the registry. -/
def Doubled (w : World) (sys : SystemAlloc) (ty : Ty) (us : List Use) (ops : List Op) : Prop :=
  ty.needsDrop = true ∧ extracted us = true ∧ (ty.size = 0 ∨
    w.arena.dropRegistry.isTracking = true ∧
      ¬ Along World.step (Spares w.arena.dropRegistry.len)
        (w.take (ArenaBox.new sys w.arena ty).2) ops)

/-- What a call does to the registry: it adds an entry of its own, or none, or cuts it and runs what
it cut off. -/
inductive Turn (w : World) : Option ℕ → World → Prop where
  | grown {w' : World} (es : List DropSlot) (hone : es.length ≤ 1) (hdrops : w'.drops = w.drops)
      (howners : w'.owners = w.owners ++ List.replicate es.length w.clock)
      (hentries : w'.arena.dropRegistry.entries = w.arena.dropRegistry.entries ++ es)
      (hclock : w'.clock = w.clock+1) : Turn w none w'
  | cut {w' : World} {boom : ℕ → ℕ → Bool} {target : ℕ}
      (hdrops : w'.drops = w.drops ++ (callsUntil boom target w.arena.dropRegistry.entries).map
        (fun c => ⟨w.clock,w.owners.getD c.entry 0,c.elem,c.slot⟩))
      (howners : w'.owners = w.owners.take target)
      (hentries : w'.arena.dropRegistry.entries = w.arena.dropRegistry.entries.take target)
      (hclock : w'.clock = w.clock+1) : Turn w (some target) w'

section turns
variable {w : World}

theorem turn_still {w' : World} (hdrops : w'.drops = w.drops) (howners : w'.owners = w.owners)
    (hregistry : w'.arena.dropRegistry = w.arena.dropRegistry) (hclock : w'.clock = w.clock+1) :
    Turn w none w' :=
  .grown [] (Nat.zero_le 1) hdrops (howners.trans (List.append_nil _).symm)
    ((congrArg DropRegistry.entries hregistry).trans (List.append_nil _).symm) hclock

theorem turn_served {sys : SystemAlloc} {r : Request} {o : Outcome}
    (ho : Served sys w.arena r o) : Turn w none (w.take o) := by
  cases ho with
  | carved _ _ _ hcarved hcarve hfills =>
    obtain ⟨g,-,-,-,howing,-,-,hentries,howners,-,-,-⟩ := take_carved hcarved hcarve hfills
    refine .grown g.owes ?_ rfl howners hentries rfl
    rcases howing with hnone | ⟨s,hs,-⟩
    · rw [hnone]
      exact Nat.zero_le 1
    · rw [hs]
      exact le_refl 1
  | failed _ _ _ _ hunmoved =>
    exact turn_still rfl (take_answer hunmoved.registry _ _) hunmoved.registry rfl
  | answered _ => exact turn_still rfl (take_answer rfl _ _) rfl rfl

theorem turn_sweep (hinv : Inv w) {s : Swept} {boom : ℕ → ℕ → Bool} {target : ℕ}
    (hcalls : s.calls = callsUntil boom target w.arena.dropRegistry.entries)
    (hregistry : s.arena.dropRegistry = (w.arena.dropRegistry.runDropsUntil boom target).2.1)
    (since : ℕ) : Turn w (some target) (w.sweep s since) := by
  have hentries : s.arena.dropRegistry.entries = w.arena.dropRegistry.entries.take target := by
    rw [hregistry, DropRegistry.entries_runDropsUntil]
  have hdrops : (w.sweep s since).drops = w.drops ++
      (callsUntil boom target w.arena.dropRegistry.entries).map
        (fun c => ⟨w.clock,w.owners.getD c.entry 0,c.elem,c.slot⟩) := by
    rw [← hcalls]
    rfl
  exact .cut hdrops (owners_sweep hinv since hentries) hentries rfl

theorem turn (hinv : Inv w) {op : Op} (hop : Honest w op) : Turn w (cutTo w op) (w.step op) := by
  cases op with
  | request sys r => exact turn_served (serve_served hinv.wf hop.1 hop.2)
  | guarded sys r =>
    cases hopened : w.opened with
    | nil =>
      simp only [World.step, hopened]
      exact turn_still rfl rfl rfl rfl
    | cons f rest =>
      simp only [World.step, hopened]
      rcases txn_served hinv.wf hop.1 hop.2 f.txn with hserved | ⟨ret,-,lost,heq⟩
      · exact turn_served hserved
      · rw [heq]
        exact turn_still rfl (take_answer rfl _ _) rfl rfl
  | checkpoint => exact turn_still rfl rfl rfl rfl
  | rewind boom stamp =>
    cases hfound : w.markAt stamp with
    | none =>
      simp only [World.step, cutTo, hfound]
      exact turn_still rfl rfl rfl rfl
    | some m =>
      simp only [World.step, cutTo, hfound]
      obtain ⟨hcalls,hregistry,-⟩ := rewind_cases boom hinv.wf
        (hinv.recallable m (List.mem_of_find?_eq_some hfound))
      exact turn_sweep hinv hcalls hregistry _
  | reset boom =>
    obtain ⟨hcalls,hregistry,-⟩ := reset_cases boom hinv.wf
    exact turn_sweep hinv hcalls hregistry _
  | begin => exact turn_still rfl rfl rfl rfl
  | commit =>
    cases hopened : w.opened with
    | nil =>
      simp only [World.step, hopened]
      exact turn_still rfl rfl rfl rfl
    | cons f rest =>
      simp only [World.step, hopened]
      exact turn_still rfl rfl rfl rfl
  | rollback boom =>
    cases hopened : w.opened with
    | nil =>
      simp only [World.step, cutTo, hopened]
      exact turn_still rfl rfl rfl rfl
    | cons f rest =>
      have hf : f ∈ w.opened := hopened ▸ List.mem_cons_self
      have hinv' := inv_depth hinv (w.arena.txnDepth-1)
      obtain ⟨hcalls,hregistry,-⟩ := rewind_cases boom hinv'.wf
        (hinv'.recallable _ (hinv.opened f hf).1)
      simp only [World.step, cutTo, hopened]
      rw [drop_eq hinv hf boom]
      cases turn_sweep hinv' hcalls hregistry f.stamp with
      | cut hdrops howners hentries hclock => exact .cut hdrops howners hentries hclock
  | setLimit bytes =>
    cases hopened : w.opened with
    | nil =>
      simp only [World.step, hopened]
      exact turn_still rfl rfl rfl rfl
    | cons f rest =>
      simp only [World.step, hopened]
      exact turn_still rfl rfl rfl rfl

end turns

theorem countP_below (boom : ℕ → ℕ → Bool) {target k : ℕ} (es : List DropSlot) (h : k < target) :
    (callsUntil boom target es).countP (·.entry = k) = 0 := by
  apply List.countP_eq_zero.mpr
  intro c hc heq
  have hge := (mem_callsUntil hc).1
  have hentry := of_decide_eq_true heq
  omega

theorem countP_slot {boom : ℕ → ℕ → Bool} {entry : ℕ} (slot : DropSlot) (k : ℕ) :
    (runSlot boom entry slot).1.countP (·.entry = k) =
      if entry = k then (runSlot boom entry slot).1.length else 0 := by
  have hentry : ∀ c ∈ (runSlot boom entry slot).1, c.entry = entry :=
    fun c hc => (mem_runElems hc).1
  split
  · next heq => exact List.countP_eq_length.mpr (fun c hc => by simp [hentry c hc, heq])
  · next hne => exact List.countP_eq_zero.mpr (fun c hc => by simp [hentry c hc, hne])

/-- An entry at or above the target is run as its slot says. -/
theorem countP_reached (boom : ℕ → ℕ → Bool) {target k : ℕ} (es : List DropSlot) {s : DropSlot}
    (h : target ≤ k) (hs : es[k]? = some s) :
    (callsUntil boom target es).countP (·.entry = k) = (runSlot boom k s).1.length := by
  induction es using List.reverseRecOn with
  | nil => cases hs
  | append_singleton es e ih =>
    have hlt : k < (es++[e]).length := (List.getElem?_eq_some_iff.mp hs).1
    rw [List.length_append, List.length_singleton] at hlt
    rw [callsUntil_concat boom es e (by omega), List.countP_append, countP_slot]
    by_cases hk : es.length = k
    · obtain rfl : e = s := by
        rw [← hk, List.getElem?_concat_length] at hs
        exact Option.some.inj hs
      have hnone : (callsUntil boom target es).countP (·.entry = k) = 0 := by
        apply List.countP_eq_zero.mpr
        intro c hc heq
        have hin := (List.getElem?_eq_some_iff.mp (mem_callsUntil hc).2.1).1
        have hentry := of_decide_eq_true heq
        omega
      rw [if_pos hk, hnone, hk, Nat.add_zero]
    · rw [if_neg hk, Nat.zero_add]
      rw [List.getElem?_append_left (by omega)] at hs
      exact ih hs

theorem length_single (boom : ℕ → ℕ → Bool) (entry p : ℕ) (ty : Ty) :
    (runSlot boom entry (.single p ty)).1.length = 1 := by
  unfold runSlot DropSlot.count runElems
  split <;> rfl

structure Waiting (stamp k : ℕ) (w : World) : Prop where
  owner : w.owners[k]? = some stamp
  single : ∃ p ty, w.arena.dropRegistry.entries[k]? = some (.single p ty)
  only : ∀ i, w.owners[i]? = some stamp → i = k
  runs_eq : runs w stamp = 0
  past : stamp < w.clock

structure Gone (stamp n : ℕ) (w : World) : Prop where
  owners : stamp ∉ w.owners
  runs_eq : runs w stamp = n
  past : stamp < w.clock

section runs
variable {w w' : World} {stamp k n : ℕ}

/-- Owners added at one moment: an index is one of before, or one of theirs. -/
theorem owner_cases {os : List ℕ} {j now i t : ℕ}
    (h : (os ++ List.replicate j now)[i]? = some t) :
    i < os.length ∧ os[i]? = some t ∨ os.length ≤ i ∧ t = now := by
  rcases Nat.lt_or_ge i os.length with hlt | hge
  · rw [List.getElem?_append_left hlt] at h
    exact Or.inl ⟨hlt,h⟩
  · rw [List.getElem?_append_right hge, List.getElem?_replicate, Option.ite_none_right_eq_some] at h
    exact Or.inr ⟨hge,(Option.some.inj h.2).symm⟩

theorem owner_grown {j : ℕ} (hpast : stamp < w.clock) {i : ℕ}
    (hi : (w.owners ++ List.replicate j w.clock)[i]? = some stamp) :
    w.owners[i]? = some stamp := by
  rcases owner_cases hi with ⟨-,hold⟩ | ⟨-,hnow⟩
  · exact hold
  · exact absurd hnow (Nat.ne_of_lt hpast)

theorem runs_cut {boom : ℕ → ℕ → Bool} {target : ℕ} (stamp : ℕ)
    (hdrops : w'.drops = w.drops ++ (callsUntil boom target w.arena.dropRegistry.entries).map
      (fun c => ⟨w.clock,w.owners.getD c.entry 0,c.elem,c.slot⟩)) :
    runs w' stamp = runs w stamp + (callsUntil boom target w.arena.dropRegistry.entries).countP
      (fun c => w.owners.getD c.entry 0 = stamp) := by
  rw [runs, hdrops, List.countP_append, List.countP_map]
  rfl

theorem call_owner (hinv : Inv w) {boom : ℕ → ℕ → Bool} {target : ℕ} {c : DropCall}
    (hc : c ∈ callsUntil boom target w.arena.dropRegistry.entries) :
    w.owners[c.entry]? = some (w.owners.getD c.entry 0) := by
  have hlt := (List.getElem?_eq_some_iff.mp (mem_callsUntil hc).2.1).1
  rw [← len_owners hinv] at hlt
  rw [List.getD_eq_getElem?_getD, List.getElem?_eq_getElem hlt]
  rfl

theorem waiting_cut (hinv : Inv w) (h : Waiting stamp k w) (boom : ℕ → ℕ → Bool) (target : ℕ) :
    (callsUntil boom target w.arena.dropRegistry.entries).countP
      (fun c => w.owners.getD c.entry 0 = stamp) =
    (callsUntil boom target w.arena.dropRegistry.entries).countP (·.entry = k) := by
  apply List.countP_congr
  intro c hc
  have howner := call_owner hinv hc
  simp only [decide_eq_true_eq]
  constructor
  · intro heq
    rw [heq] at howner
    exact h.only _ howner
  · intro heq
    rw [heq, h.owner] at howner
    rw [heq]
    exact (Option.some.inj howner).symm

theorem waiting_turn (hinv : Inv w) (h : Waiting stamp k w) {c : Option ℕ}
    (hc : ∀ target, c = some target → k < target) (ht : Turn w c w') : Waiting stamp k w' := by
  obtain ⟨p,ty,hsingle⟩ := h.single
  have hpast := h.past
  have hlt := (List.getElem?_eq_some_iff.mp h.owner).1
  have hlt' := (List.getElem?_eq_some_iff.mp hsingle).1
  cases ht with
  | grown es _ hdrops howners hentries hclock =>
    refine ⟨?_,⟨p,ty,?_⟩,?_,?_,by omega⟩
    · rw [howners, List.getElem?_append_left hlt]
      exact h.owner
    · rw [hentries, List.getElem?_append_left hlt']
      exact hsingle
    · intro i hi
      rw [howners] at hi
      exact h.only i (owner_grown hpast hi)
    · rw [runs, hdrops]
      exact h.runs_eq
  | @cut _ boom target hdrops howners hentries hclock =>
    have hkept := hc target rfl
    refine ⟨?_,⟨p,ty,?_⟩,?_,?_,by omega⟩
    · rw [howners, List.getElem?_take_of_lt hkept]
      exact h.owner
    · rw [hentries, List.getElem?_take_of_lt hkept]
      exact hsingle
    · intro i hi
      rw [howners, List.getElem?_take] at hi
      split at hi
      · exact h.only i hi
      · cases hi
    · rw [runs_cut stamp hdrops, waiting_cut hinv h, countP_below boom _ hkept, h.runs_eq]

/-- A sweep that reaches the entry runs the destructor once and takes the entry away. -/
theorem waiting_reached (hinv : Inv w) (h : Waiting stamp k w) {target : ℕ} (hle : target ≤ k)
    (ht : Turn w (some target) w') : Gone stamp 1 w' := by
  obtain ⟨p,ty,hsingle⟩ := h.single
  have hpast := h.past
  cases ht with
  | @cut _ boom _ hdrops howners _ hclock =>
    refine ⟨?_,?_,by omega⟩
    · rw [howners]
      intro hmem
      obtain ⟨i,hi⟩ := List.mem_iff_getElem?.mp hmem
      rw [List.getElem?_take] at hi
      split at hi
      · next hlt =>
        have hik := h.only i hi
        omega
      · cases hi
    · rw [runs_cut stamp hdrops, waiting_cut hinv h, countP_reached boom _ hle hsingle,
        length_single, h.runs_eq]

theorem gone_turn (hinv : Inv w) (h : Gone stamp n w) {c : Option ℕ} (ht : Turn w c w') :
    Gone stamp n w' := by
  have hpast := h.past
  cases ht with
  | grown es _ hdrops howners _ hclock =>
    refine ⟨?_,?_,by omega⟩
    · rw [howners]
      intro hmem
      rcases List.mem_append.mp hmem with hold | hnew
      · exact h.owners hold
      · have heq := List.eq_of_mem_replicate hnew
        omega
    · rw [runs, hdrops]
      exact h.runs_eq
  | @cut _ boom target hdrops howners _ hclock =>
    refine ⟨?_,?_,by omega⟩
    · rw [howners]
      exact fun hmem => h.owners (List.mem_of_mem_take hmem)
    · rw [runs_cut stamp hdrops, h.runs_eq]
      apply Nat.add_eq_left.mpr
      apply List.countP_eq_zero.mpr
      intro c hc heq
      have howner := call_owner hinv hc
      rw [of_decide_eq_true heq] at howner
      exact h.owners (List.mem_of_getElem? howner)

theorem gone_run (hinv : Inv w) (h : Gone stamp n w) (ops : List Op)
    (hops : Along World.step Honest w ops) : runs (run World.step w ops) stamp = n := by
  have hrun := run_invariant World.step Honest (fun w => Inv w ∧ Gone stamp n w)
    (fun w op hw hop => ⟨inv_step hw.1 hop,gone_turn hw.1 hw.2 (turn hw.1 hop)⟩) w ops ⟨hinv,h⟩ hops
  exact hrun.2.runs_eq

/-- Over a run, the arena destroys a waiting value once if some call reaches its entry, and not at
all otherwise. -/
theorem waiting_run (hinv : Inv w) (h : Waiting stamp k w) (ops : List Op)
    (hops : Along World.step Honest w ops) :
    (Along World.step (Spares k) w ops → runs (run World.step w ops) stamp = 0) ∧
      (¬ Along World.step (Spares k) w ops → runs (run World.step w ops) stamp = 1) := by
  induction ops generalizing w with
  | nil => exact ⟨fun _ => h.runs_eq,fun hno => absurd trivial hno⟩
  | cons op ops ih =>
    have ht := turn hinv hops.1
    have hinv' := inv_step hinv hops.1
    by_cases hspares : Spares k w op
    · obtain ⟨hzero,hone⟩ := ih hinv' (waiting_turn hinv h hspares ht) hops.2
      exact ⟨fun hall => hzero hall.2,fun hno => hone (fun hrest => hno ⟨hspares,hrest⟩)⟩
    · refine ⟨fun hall => absurd hall.1 hspares,fun _ => ?_⟩
      unfold Spares at hspares
      simp only [not_forall, not_lt] at hspares
      obtain ⟨target,hcut,hle⟩ := hspares
      rw [hcut] at ht
      exact gone_run hinv' (waiting_reached hinv h hle ht) ops hops.2

structure Dated (w : World) : Prop where
  owners : ∀ o ∈ w.owners, o < w.clock
  drops : ∀ d ∈ w.drops, d.owner < w.clock

theorem dated_turn (hinv : Inv w) (h : Dated w) {c : Option ℕ} (ht : Turn w c w') : Dated w' := by
  cases ht with
  | grown es _ hdrops howners _ hclock =>
    refine ⟨?_,?_⟩
    · intro o ho
      rw [howners] at ho
      rw [hclock]
      rcases List.mem_append.mp ho with hold | hnew
      · exact Nat.lt_succ_of_lt (h.owners o hold)
      · rw [List.eq_of_mem_replicate hnew]
        exact Nat.lt_succ_self _
    · intro d hd
      rw [hdrops] at hd
      rw [hclock]
      exact Nat.lt_succ_of_lt (h.drops d hd)
  | cut hdrops howners _ hclock =>
    refine ⟨?_,?_⟩
    · intro o ho
      rw [howners] at ho
      rw [hclock]
      exact Nat.lt_succ_of_lt (h.owners o (List.mem_of_mem_take ho))
    · intro d hd
      rw [hdrops] at hd
      rw [hclock]
      rcases List.mem_append.mp hd with hold | hnew
      · exact Nat.lt_succ_of_lt (h.drops d hold)
      · obtain ⟨c,hc,rfl⟩ := List.mem_map.mp hnew
        exact Nat.lt_succ_of_lt (h.owners _ (List.mem_of_getElem? (call_owner hinv hc)))

theorem nodup_turn (h : Dated w) (hdistinct : w.owners.Nodup) {c : Option ℕ} (ht : Turn w c w') :
    w'.owners.Nodup := by
  cases ht with
  | grown es hone _ howners _ _ =>
    rw [howners, List.nodup_append]
    refine ⟨hdistinct,List.nodup_replicate.mpr hone,?_⟩
    intro o ho o' ho'
    rw [List.eq_of_mem_replicate ho']
    exact Nat.ne_of_lt (h.owners o ho)
  | cut _ howners _ _ =>
    rw [howners]
    exact hdistinct.sublist (List.take_sublist _ _)

theorem dated_reached (h : Reached Honest w) : Inv w ∧ Dated w := by
  obtain ⟨sys,feature,initialBytes,A,ops,hs,hA,halong,rfl⟩ := h
  obtain ⟨hwf,-,-,-,-,hregistry⟩ := wf_withCapacity hs hA
  exact run_invariant World.step Honest (fun w => Inv w ∧ Dated w)
    (fun w op hw hop => ⟨inv_step hw.1 hop,dated_turn hw.1 hw.2 (turn hw.1 hop)⟩) _ ops
    ⟨inv_start hwf (by rw [hregistry, DropRegistry.entries_new]),nofun,nofun⟩ halong

theorem runs_next (h : Dated w) (hdrops : w'.drops = w.drops) : runs w' w.clock = 0 := by
  rw [runs, hdrops]
  apply List.countP_eq_zero.mpr
  intro d hd heq
  exact Nat.ne_of_lt (h.drops d hd) (of_decide_eq_true heq)

theorem gone_next (h : Dated w) (hdrops : w'.drops = w.drops) (howners : w'.owners = w.owners)
    (hclock : w'.clock = w.clock+1) : Gone w.clock 0 w' := by
  refine ⟨?_,runs_next h hdrops,by omega⟩
  rw [howners]
  exact fun hmem => Nat.lt_irrefl _ (h.owners _ hmem)

theorem waiting_next (hinv : Inv w) (h : Dated w) {p : ℕ} {ty : Ty} (hdrops : w'.drops = w.drops)
    (howners : w'.owners = w.owners ++ [w.clock])
    (hentries : w'.arena.dropRegistry.entries = w.arena.dropRegistry.entries ++ [.single p ty])
    (hclock : w'.clock = w.clock+1) : Waiting w.clock w.arena.dropRegistry.len w' := by
  have hlen : w.owners.length = w.arena.dropRegistry.len := hinv.owners
  have hentry : w.arena.dropRegistry.entries.length = w.arena.dropRegistry.len :=
    w.arena.dropRegistry.len_entries.symm
  refine ⟨?_,⟨p,ty,?_⟩,?_,runs_next h hdrops,by omega⟩
  · rw [howners, ← hlen, List.getElem?_concat_length]
  · rw [hentries, ← hentry, List.getElem?_concat_length]
  · intro i hi
    rw [howners] at hi
    rcases Nat.lt_trichotomy i w.owners.length with hlt | heq | hgt
    · rw [List.getElem?_append_left hlt] at hi
      exact absurd (h.owners _ (List.mem_of_getElem? hi)) (Nat.lt_irrefl _)
    · exact heq.trans hlen
    · rw [List.getElem?_eq_none (by rw [List.length_append, List.length_singleton]; omega)] at hi
      cases hi

end runs

section boxes
variable {w : World} {sys : SystemAlloc} {ty : Ty} {p : ℕ}

theorem new_eq {A : Arena} (hret : (alloc sys A ty).ret = .ptr p) :
    ArenaBox.new sys A ty = (some ⟨p,ty⟩,alloc sys A ty) := by
  unfold ArenaBox.new
  dsimp only
  rw [hret]

theorem alloc_kept {A : Arena} (hsize : ty.size ≠ 0) (hret : (alloc sys A ty).ret = .ptr p) :
    (alloc sys A ty).valueDrops = 0 := by
  have halloc : alloc sys A ty =
      onRaw (A.rawInner false sys ty.size ty.align) ty.size ty.align (dropGlue ty) (placeValue ty) :=
    if_neg hsize
  rw [halloc] at hret ⊢
  generalize A.rawInner false sys ty.size ty.align = r at hret ⊢
  obtain ⟨ret,B⟩ := r
  cases ret with
  | ptr q => rfl
  | none => cases hret
  | panic message => cases hret

/-- Where a value of some size stands once it is in its box: in the registry if there is one and
the value has a destructor. -/
theorem placed_cases (hinv : Inv w) (h : Dated w) (hs : Grants sys w.arena.blocks)
    (hsize : ty.size ≠ 0) (hret : (alloc sys w.arena ty).ret = .ptr p) :
    (w.arena.dropRegistry.isTracking = true ∧ ty.needsDrop = true ∧
        Waiting w.clock w.arena.dropRegistry.len (w.take (alloc sys w.arena ty))) ∨
      ¬ (w.arena.dropRegistry.isTracking = true ∧ ty.needsDrop = true) ∧
        Gone w.clock 0 (w.take (alloc sys w.arena ty)) := by
  have hserved : Served sys w.arena ⟨.value ty,false⟩ (alloc sys w.arena ty) :=
    serve_served hinv.wf hs (r := ⟨.value ty,false⟩) trivial
  generalize alloc sys w.arena ty = o at hserved hret ⊢
  cases hserved with
  | carved _ _ _ hcarved hcarve hfills =>
    obtain ⟨g,-,-,howes,-,-,-,hentries,howners,-,-,-⟩ := take_carved hcarved hcarve hfills
    by_cases hregistered : w.arena.dropRegistry.isTracking = true ∧ ty.needsDrop = true
    · rw [if_pos hregistered.1, Kind.owed, if_pos hregistered.2] at howes
      rw [howes] at hentries howners
      exact Or.inl ⟨hregistered.1,hregistered.2,waiting_next hinv h rfl howners hentries rfl⟩
    · have hnone : g.owes = [] := by
        rw [howes]
        split
        · next htrack => exact if_neg (fun hdrop => hregistered ⟨htrack,hdrop⟩)
        · rfl
      rw [hnone] at howners
      exact Or.inr ⟨hregistered,gone_next h rfl (howners.trans (List.append_nil _)) rfl⟩
  | failed _ _ _ hno _ => exact absurd hret (hno p)
  | answered hd => exact absurd ((if_neg hsize).symm.trans hd) (Option.some_ne_none _)

theorem dropGlue_le (ty : Ty) : dropGlue ty ≤ 1 := by
  unfold dropGlue
  split <;> omega

/-- The destructor of a boxed value runs at most once in all, unless the value was read out and is
destroyed elsewhere too. -/
theorem destroyed_once_iff (h : Reached Honest w) (hs : Grants sys w.arena.blocks)
    (hret : (ArenaBox.new sys w.arena ty).2.ret = .ptr p) (us : List Use) (ops : List Op)
    (hops : Along World.step Honest (w.take (ArenaBox.new sys w.arena ty).2) ops) :
    destructions w sys ty us ops ≤ 1 ↔ ¬ Doubled w sys ty us ops := by
  obtain ⟨hinv,hdated⟩ := dated_reached h
  have hcall : ∀ A, (ArenaBox.new sys A ty).2 = alloc sys A ty := by
    intro A
    unfold ArenaBox.new
    dsimp only
    split <;> rfl
  rw [hcall] at hret hops
  have hinv' : Inv (w.take (alloc sys w.arena ty)) :=
    inv_take hinv (serve_served hinv.wf hs (r := ⟨.value ty,false⟩) trivial)
  unfold destructions Doubled
  rw [new_eq hret]
  dsimp only
  rw [usesRun_some]
  by_cases hsize : ty.size = 0
  · have halloc : alloc sys w.arena ty = answer w.arena (.ptr ty.align) (dropGlue ty) := if_pos hsize
    have hgone : Gone w.clock 0 (w.take (alloc sys w.arena ty)) := by
      rw [halloc]
      exact gone_next hdated rfl (take_answer rfl _ _) rfl
    have hruns := gone_run hinv' hgone ops hops
    rw [hruns, halloc]
    simp only [hsize, true_or, and_true]
    unfold dropGlue answer
    cases ty.needsDrop <;> cases extracted us <;> simp
  · rw [alloc_kept hsize hret]
    simp only [hsize, false_or]
    have hglue := dropGlue_le ty
    rcases placed_cases hinv hdated hs hsize hret with
      ⟨htrack,hdrop,hwaiting⟩ | ⟨hno,hgone⟩
    · obtain ⟨hzero,hone⟩ := waiting_run hinv' hwaiting ops hops
      have hdropGlue : dropGlue ty = 1 := if_pos hdrop
      by_cases hspares : Along World.step (Spares w.arena.dropRegistry.len)
          (w.take (alloc sys w.arena ty)) ops
      · rw [hzero hspares]
        simp only [hspares, not_true, and_false, not_false_iff, iff_true]
        split <;> omega
      · rw [hone hspares, hdropGlue]
        simp only [hspares, htrack, hdrop, not_false_iff, and_true, true_and]
        cases extracted us <;> simp
    · rw [gone_run hinv' hgone ops hops]
      refine iff_of_true ?_ (fun hdoubled => hno ⟨hdoubled.2.2.1,hdoubled.1⟩)
      split <;> omega

end boxes

/-- A value of eight bytes read out of its box, dropped, and the arena reset. -/
theorem destroyed_twice : ∃ A, smallArena true 64 = some A ∧
    (ArenaBox.new noMemory A eightBytes).2.ret = .ptr 4096 ∧
      destructions (World.start A) noMemory eightBytes [.intoInner] [.reset quiet] = 2 := by
  obtain ⟨A,hA⟩ : ∃ A, smallArena true 64 = some A := ⟨_,rfl⟩
  refine ⟨A,hA,?_,?_⟩
  · cases hA
    decide +kernel
  · cases hA
    decide +kernel

theorem destroyed_once_iff_dropped : ∃ A, smallArena true 64 = some A ∧
    destructions (World.start A) noMemory eightBytes [.moved,.dropped] [.reset quiet] ≤ 1 := by
  obtain ⟨A,hA⟩ : ∃ A, smallArena true 64 = some A := ⟨_,rfl⟩
  have hreached : Reached Honest (World.start A) := reached_small (by norm_num) hA [] trivial
  have hret : (ArenaBox.new noMemory (World.start A).arena eightBytes).2.ret = .ptr 4096 := by
    cases hA
    decide +kernel
  refine ⟨A,hA,(destroyed_once_iff hreached (grants_noMemory _) hret [.moved,.dropped]
    [.reset quiet] ⟨trivial,trivial⟩).mpr ?_⟩
  rintro ⟨-,hextracted,-⟩
  cases hextracted

end FastArena.BoxDrops
