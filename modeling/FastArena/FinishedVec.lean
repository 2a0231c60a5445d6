import FastArena.VecGrowth

/-!
# The elements of a finished vector

Finishing a vector hands its elements to the arena, so the sweep that reclaims
them should destroy each one once. Growth asks the arena for raw bytes, and no
method of the vector registers a destructor: the sweep destroys none of them.
-/

set_option autoImplicit false

namespace FastArena.FinishedVec
open FastArena.MachineWord FastArena.ArenaBlock FastArena.InlineStorage FastArena.DropTracking
  FastArena.ArenaCore FastArena.ArenaInvariant FastArena.RawRequest FastArena.ArenaRequests
  FastArena.ArenaTransaction FastArena.LabelledRun FastArena.ArenaWorld FastArena.GrowableVec
  FastArena.VecGrowth

inductive Creates (ty : Ty) : Call → Prop where
  | new : Creates ty (.new ty)
  | withCapacity (sys : SystemAlloc) (cap : ℕ) : Creates ty (.withCapacity sys ty cap)

/-- A vector of a type with destructors, made and filled on an arena that tracks them. -/
structure Built (s : Session) (create : Call) (calls : List Call) (ty : Ty) (v : ArenaVec) :
    Prop where
  free : s.vec = none
  creates : Creates ty create
  honest : Along Session.step Session.Honest s (create::calls)
  methods : ∀ c ∈ calls, ∃ sys op, c = .vec sys op
  vec : (run Session.step s (create::calls)).vec = some (ty,v)
  tracking : s.world.arena.dropRegistry.isTracking = true
  needsDrop : ty.needsDrop = true

def finished (s : Session) (create : Call) (calls : List Call) : Session :=
  (run Session.step s (create::calls)).step .close

def Back (since : ℕ) (w : World) : Op → Prop
  | .reset _ => True
  | .rewind _ stamp => stamp < since ∧ w.markAt stamp ≠ none
  | .rollback _ => ∃ f rest, w.opened = f::rest ∧ f.stamp < since
  | _ => False

/-- After some more calls, the first that takes the arena back. -/
structure FirstBack (since : ℕ) (s : Session) (calls : List Call) (op : Op) : Prop where
  honest : Along Session.step Session.Honest s calls
  before : Along Session.step
    (fun s c => ∀ op, c = .arena op → s.vec = none → ¬ Back since s.world op) s calls
  free : (run Session.step s calls).vec = none
  back : Back since (run Session.step s calls).world op

/-- Of the destructor calls that the call `op` makes, those for what was registered while the vector
was being built. -/
def released (s : Session) (create : Call) (calls later : List Call) (op : Op) : List Drop :=
  let w := (run Session.step (finished s create calls) later).world
  ((w.step op).drops.drop w.drops.length).filter (fun d =>
    s.world.clock ≤ d.owner ∧ d.owner < (finished s create calls).world.clock)

def addr (d : Drop) : ℕ := d.slot.ptr + d.elem * d.slot.ty.size

def elements (ty : Ty) (v : ArenaVec) : List ℕ :=
  (List.range v.len).map (fun i => v.ptr + i * ty.size)

section registry
variable {A : Arena} {sys : SystemAlloc} {size align : ℕ}

theorem slowWith_registry (oom misfit : Ret) :
    (A.slowWith (Arena.newBlockWith oom misfit sys) size align).2.dropRegistry =
      A.dropRegistry := by
  cases hcall : A.slowWith (Arena.newBlockWith oom misfit sys) size align with
  | mk ret A' =>
  cases slowWith_ends oom misfit hcall with
  | resumed => exact setCurrentBlock_registry _ _
  | fresh => exact setCurrentBlock_registry _ _
  | _ => rfl

theorem rawInner_registry (fallible : Bool) :
    (A.rawInner fallible sys size align).2.dropRegistry = A.dropRegistry := by
  have hpath : ∀ slow overflow : Arena → ℕ → ℕ → Ret × Arena,
      (slow A size align).2.dropRegistry = A.dropRegistry →
      (overflow A size align).2.dropRegistry = A.dropRegistry →
      (A.rawInnerWith slow overflow size align).2.dropRegistry = A.dropRegistry := by
    intro slow overflow hslow hoverflow
    rcases rawInnerWith_ends slow overflow A size align with ⟨p,q,heq⟩ | heq | heq
    · rw [heq]
    · rw [heq]
      exact hslow
    · rw [heq]
      exact hoverflow
  cases fallible with
  | false => exact hpath _ _ (slowWith_registry _ _) (slowWith_registry _ _)
  | true => exact hpath _ (fun A _ _ => (.none,A)) (slowWith_registry _ _) rfl

theorem allocRawWith_registry (fallible : Bool) :
    (allocRawWith fallible sys A size align placeNothing).arena.dropRegistry = A.dropRegistry := by
  unfold allocRawWith
  split
  · split
    · rfl
    · have hraw := @rawInner_registry A sys size align fallible
      unfold onRaw
      split
      · next heq =>
        rw [heq] at hraw
        exact hraw
      · next heq =>
        rw [heq] at hraw
        exact hraw
  · rfl

end registry

section methods
variable {A : Arena} {sys : SystemAlloc} {ty : Ty} {v : ArenaVec}

theorem growWith_registry (fallible : Bool) (n : ℕ) :
    (growWith fallible sys A ty v n).call.arena.dropRegistry = A.dropRegistry := by
  unfold growWith
  split
  · rfl
  · split
    · rfl
    · split
      · rfl
      · next bytes _ =>
        have hraw : (if fallible then tryAllocRaw sys A bytes ty.align
            else allocRaw sys A bytes ty.align).arena.dropRegistry = A.dropRegistry := by
          cases fallible
          · exact allocRawWith_registry false
          · exact allocRawWith_registry true
        dsimp only
        split <;> exact hraw

theorem apply_registry (op : VecOp) :
    (op.apply sys A ty v).call.arena.dropRegistry = A.dropRegistry := by
  rcases @byGrowth_apply sys A ty v op with hstill | ⟨fallible,n,hgrown⟩
  · rw [hstill]
    rfl
  · rw [hgrown]
    exact growWith_registry fallible n

theorem withCapacity_registry (cap : ℕ) :
    (withCapacity sys A ty cap).call.arena.dropRegistry = A.dropRegistry := by
  unfold withCapacity
  split
  · exact growWith_registry false cap
  · split <;> rfl

end methods

section owners
variable {w : World} {s : Session}

theorem owners_same {o : Outcome} (h : o.arena.dropRegistry = w.arena.dropRegistry) :
    (w.take o).owners = w.owners := by
  simp [World.take, h]

/-- What a call registers belongs to the moment of the call. -/
theorem owners_step (w : World) (op : Op) :
    (w.step op).clock = w.clock+1 ∧ ∀ o ∈ (w.step op).owners, o ∈ w.owners ∨ o = w.clock := by
  have htake : ∀ out : Outcome, ∀ o ∈ (w.take out).owners, o ∈ w.owners ∨ o = w.clock := by
    intro out o ho
    rcases List.mem_append.mp ho with hold | hnew
    · exact Or.inl hold
    · exact Or.inr (List.eq_of_mem_replicate hnew)
  have hsweep : ∀ (sw : Swept) since, ∀ o ∈ (w.sweep sw since).owners,
      o ∈ w.owners ∨ o = w.clock := fun _ _ _ ho => Or.inl (List.mem_of_mem_take ho)
  cases op with
  | request sys r => exact ⟨rfl,htake _⟩
  | guarded sys r =>
    unfold World.step
    cases w.opened with
    | nil => exact ⟨rfl,fun _ ho => Or.inl ho⟩
    | cons f rest => exact ⟨rfl,htake _⟩
  | checkpoint => exact ⟨rfl,fun _ ho => Or.inl ho⟩
  | rewind boom stamp =>
    unfold World.step
    dsimp only
    cases w.markAt stamp with
    | none => exact ⟨rfl,fun _ ho => Or.inl ho⟩
    | some m => exact ⟨rfl,hsweep _ _⟩
  | reset boom => exact ⟨rfl,hsweep _ _⟩
  | begin => exact ⟨rfl,fun _ ho => Or.inl ho⟩
  | commit =>
    unfold World.step
    cases w.opened with
    | nil => exact ⟨rfl,fun _ ho => Or.inl ho⟩
    | cons f rest => exact ⟨rfl,fun _ ho => Or.inl ho⟩
  | rollback boom =>
    unfold World.step
    cases w.opened with
    | nil => exact ⟨rfl,fun _ ho => Or.inl ho⟩
    | cons f rest => exact ⟨rfl,hsweep (f.txn.drop boom w.arena) f.stamp⟩
  | setLimit bytes =>
    unfold World.step
    cases w.opened with
    | nil => exact ⟨rfl,fun _ ho => Or.inl ho⟩
    | cons f rest => exact ⟨rfl,fun _ ho => Or.inl ho⟩

theorem drops_owned (w : World) (op : Op) : ∃ new : List Drop, (w.step op).drops = w.drops ++ new ∧
    ∀ d ∈ new, d.owner ∈ w.owners ∨ d.owner = 0 := by
  have hnone : ∃ new : List Drop, w.drops = w.drops ++ new ∧
      ∀ d ∈ new, d.owner ∈ w.owners ∨ d.owner = 0 := ⟨[],(List.append_nil _).symm,nofun⟩
  have hsweep : ∀ (sw : Swept) since, ∃ new : List Drop, (w.sweep sw since).drops = w.drops ++ new ∧
      ∀ d ∈ new, d.owner ∈ w.owners ∨ d.owner = 0 := by
    intro sw since
    refine ⟨_,rfl,?_⟩
    intro d hd
    obtain ⟨c,-,rfl⟩ := List.mem_map.mp hd
    dsimp only
    rcases Nat.lt_or_ge c.entry w.owners.length with hlt | hge
    · rw [List.getD_eq_getElem?_getD, List.getElem?_eq_getElem hlt]
      exact Or.inl (List.getElem_mem hlt)
    · rw [List.getD_eq_getElem?_getD, List.getElem?_eq_none hge]
      exact Or.inr rfl
  cases op with
  | rewind boom stamp =>
    unfold World.step
    dsimp only
    cases w.markAt stamp with
    | none => exact hnone
    | some m => exact hsweep _ _
  | reset boom => exact hsweep _ _
  | rollback boom =>
    unfold World.step
    cases w.opened with
    | nil => exact hnone
    | cons f rest => exact hsweep (f.txn.drop boom w.arena) f.stamp
  | request sys r => exact hnone
  | checkpoint => exact hnone
  | begin => exact hnone
  | guarded sys r =>
    unfold World.step
    cases w.opened with
    | nil => exact hnone
    | cons f rest => exact hnone
  | commit =>
    unfold World.step
    cases w.opened with
    | nil => exact hnone
    | cons f rest => exact hnone
  | setLimit bytes =>
    unfold World.step
    cases w.opened with
    | nil => exact hnone
    | cons f rest => exact hnone

theorem owners_vec {c : Call} (hc : ∀ op, c ≠ .arena op) :
    (s.step c).world.clock = s.world.clock+1 ∧ (s.step c).world.owners = s.world.owners := by
  obtain ⟨w,opened⟩ := s
  cases opened with
  | none =>
    cases c with
    | arena op => exact absurd rfl (hc op)
    | withCapacity sys ty cap => exact ⟨rfl,owners_same (withCapacity_registry cap)⟩
    | _ => exact ⟨rfl,rfl⟩
  | some held =>
    cases c with
    | arena op => exact absurd rfl (hc op)
    | vec sys op => exact ⟨rfl,owners_same (apply_registry op)⟩
    | _ => exact ⟨rfl,rfl⟩

theorem owners_session (s : Session) (c : Call) : (s.step c).world.clock = s.world.clock+1 ∧
    ∀ o ∈ (s.step c).world.owners, o ∈ s.world.owners ∨ o = s.world.clock := by
  by_cases hc : ∃ op, c = .arena op
  · obtain ⟨op,rfl⟩ := hc
    obtain ⟨w,opened⟩ := s
    cases opened with
    | none => exact owners_step w op
    | some held => exact ⟨rfl,fun _ ho => Or.inl ho⟩
  · obtain ⟨hclock,howners⟩ := owners_vec (fun op heq => hc ⟨op,heq⟩)
    exact ⟨hclock,fun o ho => Or.inl (howners ▸ ho)⟩

structure Apart (since until' : ℕ) (s : Session) : Prop where
  owners : ∀ o ∈ s.world.owners, o < since ∨ until' ≤ o
  later : until' ≤ s.world.clock

theorem apart_step {since until' : ℕ} (h : Apart since until' s) (c : Call) :
    Apart since until' (s.step c) := by
  obtain ⟨hclock,howners⟩ := owners_session s c
  have hlater := h.later
  refine ⟨?_,by omega⟩
  intro o ho
  rcases howners o ho with hold | rfl
  · exact h.owners o hold
  · exact Or.inr hlater

/-- Every registration lies in the past. -/
theorem past_reached (h : s.Reached Session.Honest) :
    0 < s.world.clock ∧ ∀ o ∈ s.world.owners, o < s.world.clock := by
  obtain ⟨sys,feature,initialBytes,A,calls,-,-,halong,rfl⟩ := h
  refine run_invariant Session.step Session.Honest
    (fun s => 0 < s.world.clock ∧ ∀ o ∈ s.world.owners, o < s.world.clock) ?_ _ calls ?_ halong
  · intro s c ⟨hpos,hpast⟩ _
    obtain ⟨hclock,howners⟩ := owners_session s c
    rw [hclock]
    refine ⟨Nat.succ_pos _,?_⟩
    intro o ho
    rcases howners o ho with hold | rfl
    · exact Nat.lt_succ_of_lt (hpast o hold)
    · exact Nat.lt_succ_self _
  · exact ⟨Nat.one_pos,nofun⟩

end owners

section building
variable {s : Session} {create : Call} {calls : List Call} {ty : Ty} {v : ArenaVec}

theorem methods_run (h : ∀ c ∈ calls, ∃ sys op, c = .vec sys op) (s : Session) :
    s.world.clock ≤ (run Session.step s calls).world.clock ∧
      (run Session.step s calls).world.owners = s.world.owners := by
  induction calls generalizing s with
  | nil => exact ⟨le_refl _,rfl⟩
  | cons c calls ih =>
    obtain ⟨sys,op,rfl⟩ := h c List.mem_cons_self
    obtain ⟨hclock,howners⟩ := @owners_vec s (.vec sys op) nofun
    obtain ⟨hle,hsame⟩ := ih (fun c hc => h c (List.mem_cons_of_mem _ hc)) (s.step (.vec sys op))
    exact ⟨by change _ ≤ (run Session.step (s.step (.vec sys op)) calls).world.clock; omega,
      hsame.trans howners⟩

theorem apart_finished (h : s.Reached Session.Honest) (hbuilt : Built s create calls ty v) :
    Apart s.world.clock (finished s create calls).world.clock (finished s create calls) := by
  have hcreate : ∀ op, create ≠ .arena op := by
    cases hbuilt.creates <;> nofun
  obtain ⟨-,hfirst⟩ := owners_vec (s := s) hcreate
  obtain ⟨-,hrest⟩ := methods_run hbuilt.methods (s.step create)
  obtain ⟨-,hlast⟩ := @owners_vec (run Session.step s (create::calls)) .close nofun
  refine ⟨?_,le_refl _⟩
  intro o ho
  have hold : o ∈ s.world.owners := by
    rw [← hfirst, ← hrest]
    exact hlast ▸ ho
  exact Or.inl ((past_reached h).2 o hold)

theorem released_none (h : s.Reached Session.Honest) (hbuilt : Built s create calls ty v)
    {later : List Call}
    (hlater : Along Session.step Session.Honest (finished s create calls) later) (op : Op) :
    released s create calls later op = [] := by
  have hapart : Apart s.world.clock (finished s create calls).world.clock
      (run Session.step (finished s create calls) later) :=
    run_invariant Session.step Session.Honest
      (Apart s.world.clock (finished s create calls).world.clock)
      (fun _ c hs _ => apart_step hs c) _ later (apart_finished h hbuilt) hlater
  obtain ⟨new,hdrops,howner⟩ := drops_owned
    (run Session.step (finished s create calls) later).world op
  unfold released
  dsimp only
  rw [hdrops, List.drop_left, List.filter_eq_nil_iff]
  intro d hd hin
  obtain ⟨hlo,hhi⟩ := of_decide_eq_true hin
  rcases howner d hd with hmem | hzero
  · rcases hapart.owners _ hmem with hlt | hge <;> omega
  · have hpos := (past_reached h).1
    omega

/-- The first later call that takes the arena back destroys the elements of a finished vector, each
once and nothing else of its, exactly if there are none. -/
theorem finished_dropped_iff (h : s.Reached Session.Honest)
    (hbuilt : Built s create calls ty v) {later : List Call} {op : Op}
    (hback : FirstBack s.world.clock (finished s create calls) later op) :
    ((released s create calls later op).map addr).Perm (elements ty v) ↔ v.len = 0 := by
  rw [released_none h hbuilt hback.honest, List.map_nil, List.nil_perm]
  simp [elements]

end building

theorem built_one {A : Arena} (hA : smallArena true 64 = some A) :
    Built ⟨World.start A,none⟩ (.new eightBytes) [.vec noMemory .push] eightBytes
      ⟨4096,1,4⟩ where
  free := rfl
  creates := .new
  honest := ⟨trivial,honest_push,trivial⟩
  methods := by
    intro c hc
    exact ⟨_,_,List.mem_singleton.mp hc⟩
  vec := by
    cases hA
    rfl
  tracking := by
    cases hA
    decide +kernel
  needsDrop := rfl

theorem back_one (A : Arena) : FirstBack (World.start A).clock
    (finished ⟨World.start A,none⟩ (.new eightBytes) [.vec noMemory .push]) [] (.reset quiet) :=
  ⟨trivial,trivial,rfl,trivial⟩

theorem reached_new {A : Arena} (hA : smallArena true 64 = some A) :
    Session.Reached Session.Honest ⟨World.start A,none⟩ :=
  session_small (by norm_num) hA [] trivial

theorem finished_dropped_iff_one : ∃ A, smallArena true 64 = some A ∧
    (((released ⟨World.start A,none⟩ (.new eightBytes) [.vec noMemory .push] []
      (.reset quiet)).map addr).Perm (elements eightBytes ⟨4096,1,4⟩) ↔ 1 = 0) := by
  obtain ⟨A,hA⟩ : ∃ A, smallArena true 64 = some A := ⟨_,rfl⟩
  exact ⟨A,hA,finished_dropped_iff (reached_new hA) (built_one hA) (back_one A)⟩

/-- The element of a vector that was finished is not destroyed by the reset that follows. -/
theorem element_leaked : ∃ s create calls ty v op, s.Reached Session.Honest ∧
    Built s create calls ty v ∧ FirstBack s.world.clock (finished s create calls) [] op ∧
      ¬ ((released s create calls [] op).map addr).Perm (elements ty v) := by
  obtain ⟨A,hA⟩ : ∃ A, smallArena true 64 = some A := ⟨_,rfl⟩
  refine ⟨_,_,_,_,_,_,reached_new hA,built_one hA,back_one A,?_⟩
  cases hA
  intro hperm
  have hlen := hperm.length_eq
  rw [show (elements eightBytes ⟨4096,1,4⟩).length = 1 from rfl] at hlen
  revert hlen
  decide +kernel

end FastArena.FinishedVec
