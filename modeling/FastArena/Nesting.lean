import FastArena.Rewind
import FastArena.RegionSafety

/-!
# Nested scopes

Programs whose scopes are well nested: guards committed, rolled back or
dropped, closures run in a transaction, panics that unwind through scopes. A
program is a tree; running it on an arena makes a sequence of calls. What a
scope leaves behind is read off the tree.
-/

set_option autoImplicit false

namespace FastArena.Nesting
open FastArena.MachineWord FastArena.ByteSpan FastArena.ArenaBlock FastArena.InlineStorage
  FastArena.DropTracking FastArena.ArenaCore FastArena.ArenaInvariant FastArena.RawRequest
  FastArena.ArenaSweep FastArena.ArenaRequests FastArena.ArenaTransaction FastArena.LabelledRun
  FastArena.ArenaWorld FastArena.ArenaSteps FastArena.Rewind FastArena.RegionSafety

inductive Scope where
  | guard (commits : Bool)
  | withTransaction (ok : Bool)
  | withTransactionInfallible

def Scope.rollsBack : Scope → Bool → Bool
  | .guard commits, panicked => panicked || !commits
  | .withTransaction ok, panicked => panicked || !ok
  | .withTransactionInfallible, _ => false

inductive Prog where
  | skip
  | request (sys : SystemAlloc) (r : Request)
  | guarded (sys : SystemAlloc) (r : Request)
  | setLimit (bytes : ℕ)
  | panic
  | seq (p q : Prog)
  | scope (s : Scope) (body : Prog)
  | catchUnwind (body : Prog)

def panicked (o : Outcome) : Bool :=
  match o.ret with
  | .panic _ => true
  | _ => false

def Scope.close (s : Scope) (unwinding : Bool) : Op :=
  if s.rollsBack unwinding then .rollback quiet else .commit

def Prog.calls : Prog → World → List Op × Bool
  | .skip, _ => ([],false)
  | .request sys r, w => ([.request sys r],panicked (r.serve sys w.arena))
  | .guarded sys r, w => ([.guarded sys r],match w.opened with
    | [] => false
    | f::_ => panicked (f.txn.serve sys w.arena r))
  | .setLimit bytes, _ => ([.setLimit bytes],false)
  | .panic, _ => ([],true)
  | .seq p q, w =>
    let first := p.calls w
    if first.2 then first
    else
      let rest := q.calls (run World.step w first.1)
      (first.1 ++ rest.1,rest.2)
  | .scope s body, w =>
    let inner := body.calls (w.step .begin)
    (.begin :: (inner.1 ++ [s.close inner.2]),inner.2)
  | .catchUnwind body, w => ((body.calls w).1,false)

def exec (p : Prog) (w : World) : World := run World.step w (p.calls w).1

def inside (body : Prog) (w : World) : World := exec body (w.step .begin)

theorem exec_seq (p q : Prog) (w : World) : exec (.seq p q) w =
    if (p.calls w).2 then exec p w else exec q (exec p w) := by
  unfold exec
  rw [Prog.calls]
  dsimp only
  split
  · rfl
  · rw [run_append]

theorem exec_scope (s : Scope) (body : Prog) (w : World) : exec (.scope s body) w =
    (inside body w).step (s.close (body.calls (w.step .begin)).2) := by
  unfold exec inside exec
  rw [Prog.calls]
  dsimp only
  rw [run, run_append]
  rfl

def frame (f : Open) : Transaction × ℕ × Arena := ({ f.txn with limit := none },f.stamp,f.start)

theorem step_close {w : World} {f : Open} {rest : List Open} (hopened : w.opened = f::rest)
    (s : Scope) (unwinding : Bool) : (w.step (s.close unwinding)).opened = rest := by
  unfold Scope.close
  split <;> simp only [World.step, hopened]

/-- Running a program leaves the scopes that were open open, and no others. -/
theorem opened_exec (p : Prog) (w : World) :
    (exec p w).opened.map frame = w.opened.map frame := by
  induction p generalizing w with
  | skip => rfl
  | request sys r => rfl
  | guarded sys r =>
    change (w.step (.guarded sys r)).opened.map frame = _
    cases hopened : w.opened <;> simp only [World.step, hopened] <;> rw [← hopened] <;> rfl
  | setLimit bytes =>
    change (w.step (.setLimit bytes)).opened.map frame = _
    cases hopened : w.opened with
    | nil => simp only [World.step, hopened]; rw [← hopened]; rfl
    | cons f rest => simp only [World.step, hopened]; rfl
  | panic => rfl
  | seq p q ihp ihq =>
    rw [exec_seq]
    split
    · exact ihp w
    · rw [ihq, ihp]
  | scope s body ih =>
    have hinner := ih (w.step .begin)
    rw [exec_scope]
    cases hopened : (inside body w).opened with
    | nil =>
      change (inside body w).opened.map frame = _ at hinner
      rw [hopened] at hinner
      cases hinner
    | cons f rest =>
      change (inside body w).opened.map frame = _ at hinner
      rw [hopened] at hinner
      rw [step_close hopened]
      exact (List.cons.inj hinner).2
  | catchUnwind body ih => exact ih w

theorem clock_run (w : World) (ops : List Op) :
    (run World.step w ops).clock = w.clock + ops.length := by
  induction ops generalizing w with
  | nil => rfl
  | cons op ops ih => rw [run, ih, clock_step, List.length_cons]; omega

theorem opened_inside (body : Prog) (w : World) : ∃ f rest,
    (inside body w).opened = f::rest ∧ f.stamp = w.clock ∧
      f.txn.checkpoint = w.arena.checkpoint ∧ f.txn.committed = false ∧
        rest.map frame = w.opened.map frame := by
  have hinner := opened_exec body (w.step .begin)
  change (inside body w).opened.map frame = _ at hinner
  cases hopened : (inside body w).opened with
  | nil =>
    rw [hopened] at hinner
    cases hinner
  | cons f rest =>
    rw [hopened] at hinner
    obtain ⟨hframe,hrest⟩ := List.cons.inj hinner
    obtain ⟨htxn,hothers⟩ := Prod.mk.inj hframe
    exact ⟨f,rest,rfl,(Prod.mk.inj hothers).1,congrArg Transaction.checkpoint htxn,
      congrArg Transaction.committed htxn,hrest⟩

/-- A program only rolls back scopes that it opened itself. -/
theorem later_calls (p : Prog) {w : World} {since : ℕ} (h : since ≤ w.clock) :
    Along World.step (Later since) w (p.calls w).1 := by
  induction p generalizing w with
  | skip => trivial
  | request sys r => exact ⟨⟨trivial,nofun⟩,trivial⟩
  | guarded sys r => exact ⟨⟨trivial,nofun⟩,trivial⟩
  | setLimit bytes => exact ⟨⟨trivial,nofun⟩,trivial⟩
  | panic => trivial
  | seq p q ihp ihq =>
    rw [Prog.calls]
    dsimp only
    split
    · exact ihp h
    · rw [along_append]
      exact ⟨ihp h,ihq (by rw [clock_run]; omega)⟩
  | scope s body ih =>
    have hbody := ih (w := w.step .begin) (by rw [clock_step]; omega)
    refine ⟨⟨trivial,nofun⟩,?_⟩
    rw [along_append]
    refine ⟨hbody,?_,trivial⟩
    obtain ⟨f,rest,hopened,hstamp,-⟩ := opened_inside body w
    unfold Scope.close
    split
    · refine ⟨?_,nofun⟩
      intro g hg
      change g ∈ (inside body w).opened.head? at hg
      rw [hopened] at hg
      cases hg
      omega
    · exact ⟨trivial,nofun⟩
  | catchUnwind body ih => exact ih h

def Nested (w : World) (op : Op) : Prop :=
  Honest w op ∧ (op = .begin → w.opened.length + 1 < 2^64)

def Leveled : List Open → Prop
  | [] => True
  | f::rest => f.txn.depth = rest.length+1 ∧ Leveled rest

structure Depths (w : World) : Prop where
  depth_eq : w.arena.txnDepth = w.opened.length
  levels : Leveled w.opened
  small : w.opened.length < 2^64

theorem depth_served {sys : SystemAlloc} {A : Arena} {r : Request} {o : Outcome}
    (ho : Served sys A r o) : o.arena.txnDepth = A.txnDepth := by
  cases ho with
  | carved _ _ _ hcarved _ hfills =>
    obtain ⟨registry,harena,-,-⟩ := hfills.arena_eq
    rw [harena]
    exact hcarved.depth
  | failed _ _ _ _ hunmoved => exact hunmoved.depth
  | answered _ => rfl

theorem depth_rewind {A : Arena} {cp : Checkpoint} (boom : ℕ → ℕ → Bool) (h : Wf A)
    (hcp : Recallable A.blocks cp) : (A.rewind boom cp).arena.txnDepth = A.txnDepth := by
  rcases (rewind_cases boom h hcp).2.2 with ⟨-,-,harena⟩ | ⟨-,-,hrewound⟩
  · rw [harena]
  · exact hrewound.depth

theorem depth_reset {A : Arena} (boom : ℕ → ℕ → Bool) (h : Wf A) :
    (A.reset boom).arena.txnDepth = A.txnDepth := by
  rcases (reset_cases boom h).2.2 with ⟨-,-,harena⟩ | ⟨-,-,hemptied⟩
  · rw [harena]
  · exact hemptied.depth

section levels
variable {w w' : World}

theorem depths_still (h : Depths w) (hdepth : w'.arena.txnDepth = w.arena.txnDepth)
    (hopened : w'.opened = w.opened) : Depths w' := by
  refine ⟨?_,?_,?_⟩
  · rw [hdepth, hopened]
    exact h.depth_eq
  · rw [hopened]
    exact h.levels
  · rw [hopened]
    exact h.small

theorem depths_closed (h : Depths w) {f : Open} {rest : List Open} (hopened : w.opened = f::rest)
    (hdepth : w'.arena.txnDepth = w.arena.txnDepth-1) (hrest : w'.opened = rest) : Depths w' := by
  obtain ⟨hlevel,hlevels,hsmall⟩ := h
  rw [hopened] at hlevel hlevels hsmall
  refine ⟨?_,?_,?_⟩
  · rw [hdepth, hlevel, hrest, List.length_cons, Nat.add_sub_cancel]
  · rw [hrest]
    exact hlevels.2
  · rw [hrest]
    exact lt_of_le_of_lt (Nat.le_succ _) hsmall

theorem depths_begin (h : Depths w) (hroom : w.opened.length+1 < 2^64) :
    Depths (w.step .begin) := by
  have hnext : wadd w.arena.txnDepth 1 = w.opened.length+1 := by
    rw [h.depth_eq, wadd_eq hroom]
  exact ⟨hnext,⟨hnext,h.levels⟩,hroom⟩

theorem depths_commit (h : Depths w) : Depths (w.step .commit) := by
  cases hopened : w.opened with
  | nil =>
    simp only [World.step, hopened]
    exact depths_still h rfl rfl
  | cons f rest =>
    simp only [World.step, hopened]
    have hsmall := h.small
    have hpos : 0 < w.arena.txnDepth := by
      rw [h.depth_eq, hopened]
      exact Nat.succ_pos _
    rw [← h.depth_eq] at hsmall
    exact depths_closed h hopened (wsub_eq hpos hsmall) rfl

theorem depths_rollback (hinv : Inv w) (h : Depths w) (boom : ℕ → ℕ → Bool) :
    Depths (w.step (.rollback boom)) := by
  cases hopened : w.opened with
  | nil =>
    simp only [World.step, hopened]
    exact depths_still h rfl rfl
  | cons f rest =>
    have hf : f ∈ w.opened := hopened ▸ List.mem_cons_self
    have hcp := hinv.recallable _ (hinv.opened f hf).1
    have hwf := wf_txnDepth hinv.wf (w.arena.txnDepth-1)
    simp only [World.step, hopened]
    rw [drop_eq hinv hf boom]
    exact depths_closed h hopened (depth_rewind boom hwf hcp) rfl

theorem depths_step (hinv : Inv w) (h : Depths w) {op : Op} (hop : Nested w op) :
    Depths (w.step op) := by
  obtain ⟨hhonest,hroom⟩ := hop
  cases op with
  | request sys r =>
    exact depths_still h (depth_served (serve_served hinv.wf hhonest.1 hhonest.2)) rfl
  | guarded sys r =>
    cases hopened : w.opened with
    | nil =>
      simp only [World.step, hopened]
      exact depths_still h rfl rfl
    | cons f rest =>
      simp only [World.step, hopened]
      refine depths_still h ?_ rfl
      rcases txn_served hinv.wf hhonest.1 hhonest.2 f.txn with hserved | ⟨ret,-,lost,heq⟩
      · exact depth_served hserved
      · change (f.txn.serve sys w.arena r).arena.txnDepth = _
        rw [heq]
        rfl
  | checkpoint => exact depths_still h rfl rfl
  | rewind boom stamp =>
    cases hfound : w.markAt stamp with
    | none =>
      simp only [World.step, hfound]
      exact depths_still h rfl rfl
    | some m =>
      simp only [World.step, hfound]
      have hm := hinv.recallable m (List.mem_of_find?_eq_some hfound)
      exact depths_still h (depth_rewind boom hinv.wf hm) rfl
  | reset boom => exact depths_still h (depth_reset boom hinv.wf) rfl
  | begin => exact depths_begin h (hroom rfl)
  | commit => exact depths_commit h
  | rollback boom => exact depths_rollback hinv h boom
  | setLimit bytes =>
    cases hopened : w.opened with
    | nil =>
      simp only [World.step, hopened]
      exact depths_still h rfl rfl
    | cons f rest =>
      -- The limit of the innermost guard changes, its depth does not.
      simp only [World.step, hopened]
      obtain ⟨hdepth,hlevels,hsmall⟩ := h
      rw [hopened] at hdepth hlevels hsmall
      exact ⟨hdepth,hlevels,hsmall⟩

end levels

theorem depths_reached {w : World} (h : Reached Nested w) : Inv w ∧ Depths w := by
  obtain ⟨sys,feature,initialBytes,A,ops,hs,hA,halong,rfl⟩ := h
  obtain ⟨hwf,-,-,-,hdepth,hregistry⟩ := wf_withCapacity hs hA
  have hinv : Inv (World.start A) := inv_start hwf (by rw [hregistry, DropRegistry.entries_new])
  have hstart : Depths (World.start A) := ⟨hdepth,trivial,Nat.two_pow_pos 64⟩
  exact run_invariant World.step Nested (fun w => Inv w ∧ Depths w)
    (fun _ _ hw hop => ⟨inv_step hw.1 hop.1,depths_step hw.1 hw.2 hop⟩) _ ops ⟨hinv,hstart⟩ halong

structure Held (A A' : Arena) : Prop where
  current_eq : A'.current = A.current
  ptr_eq : A'.curPtr = A.curPtr
  flushed_eq : A'.bytesAllocated = A.bytesAllocated
  registry_eq : A'.dropRegistry.len = A.dropRegistry.len

/-- What a program allocated and no scope of its own has rolled back, newest first. -/
def survivors : Prog → World → List Grant
  | .skip, _ => []
  | .request sys r, w => w.grantOf (r.serve sys w.arena)
  | .guarded sys r, w =>
    match w.opened with
    | [] => []
    | f::_ => w.grantOf (f.txn.serve sys w.arena r)
  | .setLimit _, _ => []
  | .panic, _ => []
  | .seq p q, w =>
    if (p.calls w).2 then survivors p w else survivors q (exec p w) ++ survivors p w
  | .scope s body, w =>
    if s.rollsBack (body.calls (w.step .begin)).2 then [] else survivors body (w.step .begin)
  | .catchUnwind body, w => survivors body w

theorem grantOf_late {w : World} {o : Outcome} {g : Grant} (hg : g ∈ w.grantOf o) :
    w.clock ≤ g.stamp := by
  unfold World.grantOf at hg
  split at hg
  · cases hg
  · rw [List.mem_singleton.mp hg]

theorem survivors_late (p : Prog) {w : World} {g : Grant} (hg : g ∈ survivors p w) :
    w.clock ≤ g.stamp := by
  induction p generalizing w with
  | skip => cases hg
  | request sys r => exact grantOf_late hg
  | guarded sys r =>
    unfold survivors at hg
    split at hg
    · cases hg
    · exact grantOf_late hg
  | setLimit bytes => cases hg
  | panic => cases hg
  | seq p q ihp ihq =>
    unfold survivors at hg
    split at hg
    · exact ihp hg
    · rcases List.mem_append.mp hg with hq | hp
      · have hclock : w.clock ≤ (exec p w).clock := by
          rw [exec, clock_run]
          exact Nat.le_add_right _ _
        exact hclock.trans (ihq hq)
      · exact ihp hp
  | scope s body ih =>
    unfold survivors at hg
    split at hg
    · cases hg
    · exact (Nat.le_succ _).trans (ih hg)
  | catchUnwind body ih => exact ih hg

section scopes
variable {w : World}

theorem inv_run (hinv : Inv w) {ops : List Op} (h : Along World.step Nested w ops) :
    Inv (run World.step w ops) :=
  run_invariant World.step Nested Inv (fun _ _ hw hop => inv_step hw hop.1) w ops hinv h

theorem calls_scope {s : Scope} {body : Prog}
    (h : Along World.step Nested w ((Prog.scope s body).calls w).1) :
    Along World.step Nested (w.step .begin) (body.calls (w.step .begin)).1 :=
  ((along_append World.step Nested _ _ _).mp h.2).1

theorem since_inside (hinv : Inv w) {body : Prog}
    (h : Along World.step Nested (w.step .begin) (body.calls (w.step .begin)).1) :
    Inv (inside body w) ∧ Since w.arena w.clock (inside body w) := by
  have hbegin : Honest w .begin := trivial
  have hsince : Since w.arena w.clock (w.step .begin) :=
    since_step hinv (since_start hinv) hbegin ⟨trivial,nofun⟩
  have hlater : Along World.step (Later w.clock) (w.step .begin) (body.calls (w.step .begin)).1 :=
    later_calls body (Nat.le_succ _)
  exact since_run (inv_step hinv hbegin) hsince
    (along_and _ _ _ (along_mono _ _ (fun _ _ hop => hop.1) _ _ h) hlater)

theorem rollback_inside (hinv : Inv w) {body : Prog}
    (h : Along World.step Nested (w.step .begin) (body.calls (w.step .begin)).1) {after : World}
    (hafter : after = (inside body w).step (.rollback quiet)) :
    Restored w.arena after.arena ∧ position after.arena = position w.arena ∧
      after.arena.dropRegistry.entries = w.arena.dropRegistry.entries ∧
        after.live = (inside body w).live.filter (·.stamp < w.clock) ∧
          after.issued = (inside body w).issued := by
  obtain ⟨hinside,hsince⟩ := since_inside hinv h
  obtain ⟨f,rest,hopened,hstamp,hcp,-,-⟩ := opened_inside body w
  have hf : f ∈ (inside body w).opened := hopened ▸ List.mem_cons_self
  generalize inside body w = v at hafter hinside hsince hopened hf
  have hrecall : Recallable v.arena.blocks w.arena.checkpoint :=
    recallable_grown (recallable_checkpoint hinv.wf) hsince.grown
  simp only [World.step, hopened] at hafter
  rw [drop_eq hinside hf quiet, hcp, hstamp] at hafter
  obtain ⟨-,hregistry,hcases⟩ :=
    rewind_cases quiet (wf_txnDepth hinside.wf (v.arena.txnDepth-1)) hrecall
  rcases hcases with ⟨-,hpanic,-⟩ | ⟨hquiet,-,hrewound⟩
  · rw [DropRegistry.panicked_runDropsUntil_quiet] at hpanic
    cases hpanic
  · have hback := restored_of (B := { v.arena with txnDepth := v.arena.txnDepth-1 }) hinv.wf
      hsince.grown hsince.kept hrewound
    subst hafter
    refine ⟨hback,rewound_position hrewound,?_,if_pos hquiet,rfl⟩
    change (Arena.rewind quiet { v.arena with txnDepth := v.arena.txnDepth-1 }
      w.arena.checkpoint).arena.dropRegistry.entries = _
    rw [hregistry, DropRegistry.entries_runDropsUntil]
    have hlen : w.arena.checkpoint.dropRegistryLen = w.arena.dropRegistry.entries.length :=
      w.arena.dropRegistry.len_entries
    rw [hlen]
    exact (List.prefix_iff_eq_take.mp hsince.registry).symm

/-- After a program there is, of what it allocated, what survived its scopes; and all there was
before. -/
theorem live_exec (p : Prog) (hinv : Inv w) (h : Along World.step Nested w (p.calls w).1) :
    (exec p w).live = survivors p w ++ w.live := by
  induction p generalizing w with
  | skip => rfl
  | request sys r => rfl
  | guarded sys r =>
    change (w.step (.guarded sys r)).live = _
    unfold survivors
    cases hopened : w.opened with
    | nil => simp only [World.step, hopened]; rfl
    | cons f rest => simp only [World.step, hopened]; rfl
  | setLimit bytes =>
    change (w.step (.setLimit bytes)).live = _
    cases hopened : w.opened <;> simp only [World.step, hopened] <;> rfl
  | panic => rfl
  | seq p q ihp ihq =>
    rw [exec_seq, survivors]
    rw [Prog.calls] at h
    dsimp only at h
    split at h
    · next hpanic => rw [if_pos hpanic, if_pos hpanic, ihp hinv h]
    · next hpanic =>
      obtain ⟨hp,hq⟩ := (along_append World.step Nested _ _ _).mp h
      have hrest : (exec q (exec p w)).live = survivors q (exec p w) ++ (exec p w).live :=
        ihq (inv_run hinv hp) hq
      rw [if_neg hpanic, if_neg hpanic, hrest, ihp hinv hp, List.append_assoc]
  | scope s body ih =>
    have hbegin : Inv (w.step .begin) := inv_step hinv trivial
    have hinner : (inside body w).live = survivors body (w.step .begin) ++ w.live :=
      ih hbegin (calls_scope h)
    rw [exec_scope, survivors, Scope.close]
    split
    · obtain ⟨-,-,-,hlive,-⟩ := rollback_inside hinv (calls_scope h) rfl
      rw [hlive, hinner, List.filter_append]
      have hgone : (survivors body (w.step .begin)).filter (·.stamp < w.clock) = [] := by
        apply List.filter_eq_nil_iff.mpr
        intro g hg
        have hlate : w.clock + 1 ≤ g.stamp := survivors_late body hg
        simp only [decide_eq_true_eq]
        omega
      have hkept : w.live.filter (·.stamp < w.clock) = w.live := by
        apply List.filter_eq_self.mpr
        intro g hg
        have hpast := hinv.sound.issued_past g.piece
          (List.mem_map_of_mem (hinv.live_issued.subset hg))
        exact decide_eq_true hpast
      rw [hgone, hkept]
    · obtain ⟨f,rest,hopened,-⟩ := opened_inside body w
      simp only [World.step, hopened]
      exact hinner
  | catchUnwind body ih => exact ih hinv h

/-- How a scope ends: rolled back, the arena is as it was when the scope opened and all that was
allocated in it is free; committed, as it was just before the commit. -/
theorem scope_held (hinv : Inv w) {s : Scope} {body : Prog}
    (h : Along World.step Nested w ((Prog.scope s body).calls w).1) :
    if s.rollsBack (body.calls (w.step .begin)).2 then
      Held w.arena (exec (.scope s body) w).arena ∧ ∀ g ∈ (exec (.scope s body) w).issued,
        w.clock ≤ g.stamp → position (exec (.scope s body) w).arena ≤ g.piece.lo
    else Held (inside body w).arena (exec (.scope s body) w).arena := by
  rw [exec_scope, Scope.close]
  split
  · obtain ⟨hrestored,hpos,hentries,-,hissued⟩ := rollback_inside hinv (calls_scope h) rfl
    obtain ⟨-,hsince⟩ := since_inside hinv (calls_scope h)
    refine ⟨⟨hrestored.current_eq,hrestored.ptr_eq,hrestored.flushed_eq,?_⟩,?_⟩
    · rw [DropRegistry.len_entries, DropRegistry.len_entries, hentries]
    · intro g hg hle
      rw [hissued] at hg
      rw [hpos]
      exact hsince.above.issued g.piece (List.mem_map_of_mem hg) hle
  · obtain ⟨f,rest,hopened,-⟩ := opened_inside body w
    simp only [World.step, hopened]
    exact ⟨rfl,rfl,rfl,rfl⟩

end scopes

/-- The law of nested scopes, for any program in any state: depths count the open scopes, each
scope restores the arena when it rolls back and leaves it alone when it commits, what is live is
what no scope rolled back, and what is live is out of reach of everything allocated since. -/
theorem nested_scopes {w : World} (h : Reached Nested w) (p : Prog)
    (hp : Along World.step Nested w (p.calls w).1) :
    (w.arena.txnDepth = w.opened.length ∧ Leveled w.opened) ∧
    ((exec p w).arena.txnDepth = w.arena.txnDepth ∧
      (exec p w).opened.map frame = w.opened.map frame) ∧
    (∀ s body, p = .scope s body →
      if s.rollsBack (body.calls (w.step .begin)).2 then
        Held w.arena (exec p w).arena ∧ ∀ g ∈ (exec p w).issued, w.clock ≤ g.stamp →
          position (exec p w).arena ≤ g.piece.lo
      else Held (inside body w).arena (exec p w).arena) ∧
    (exec p w).live = survivors p w ++ w.live ∧
    ∀ g ∈ (exec p w).live, g.piece.hi ≤ position (exec p w).arena ∧
      ∀ g' ∈ (exec p w).issued, g.stamp < g'.stamp →
        g.region.span.Apart g'.region.span ∧ ∀ s ∈ g'.wrote, g.region.span.Apart s := by
  obtain ⟨hinv,hdepths⟩ := depths_reached h
  have hafter := run_invariant World.step Nested (fun w => Inv w ∧ Depths w)
    (fun _ _ hw hop => ⟨inv_step hw.1 hop.1,depths_step hw.1 hw.2 hop⟩) _ _ ⟨hinv,hdepths⟩ hp
  change Inv (exec p w) ∧ Depths (exec p w) at hafter
  have hopened := opened_exec p w
  have hlength : (exec p w).opened.length = w.opened.length := by
    rw [← List.length_map (f := frame), hopened, List.length_map]
  refine ⟨⟨hdepths.depth_eq,hdepths.levels⟩,⟨?_,hopened⟩,?_,live_exec p hinv hp,?_⟩
  · rw [hafter.2.depth_eq, hdepths.depth_eq, hlength]
  · rintro s body rfl
    exact scope_held hinv hp
  · exact fun g hg => live_untouched hafter.1 hg

def nestedProg : Prog :=
  .scope (.guard true) (.seq (.guarded noMemory ⟨.value eightBytes,false⟩)
    (.seq (.catchUnwind (.scope (.withTransaction true)
      (.seq (.request noMemory ⟨.raw 16 1,true⟩) .panic)))
        (.guarded noMemory ⟨.str 5,false⟩)))

-- The calls are found by evaluating the program, past the default depth.
set_option maxRecDepth 100000 in
theorem calls_nestedProg {A : Arena} (hA : smallArena true 64 = some A) :
    (nestedProg.calls (World.start A)).1 = [.begin,
      .guarded noMemory ⟨.value eightBytes,false⟩,.begin,.request noMemory ⟨.raw 16 1,true⟩,
        .rollback quiet,.guarded noMemory ⟨.str 5,false⟩,.commit] := by
  cases hA
  rfl

theorem nested_scopes_nestedProg : ∃ A, smallArena true 64 = some A ∧
    (exec nestedProg (World.start A)).live = survivors nestedProg (World.start A) ++ [] ∧
      (survivors nestedProg (World.start A)).map (·.region.span) = [⟨4104,5⟩,⟨4096,8⟩] := by
  obtain ⟨A,hA⟩ : ∃ A, smallArena true 64 = some A := ⟨_,rfl⟩
  have hreached : Reached Nested (World.start A) := reached_small (by norm_num) hA [] trivial
  have hraw : (16 : ℕ) < 2^64 := by norm_num
  have hstr : (5 : ℕ) < 2^63 := by norm_num
  have hcalls : Along World.step Nested (World.start A) (nestedProg.calls (World.start A)).1 := by
    rw [calls_nestedProg hA]
    refine ⟨⟨trivial,fun _ => ?_⟩,⟨⟨grants_noMemory _,trivial⟩,nofun⟩,⟨trivial,fun _ => ?_⟩,
      ⟨⟨grants_noMemory _,hraw⟩,nofun⟩,⟨trivial,nofun⟩,⟨⟨grants_noMemory _,hstr⟩,nofun⟩,
      ⟨trivial,nofun⟩,trivial⟩
    all_goals
      cases hA
      decide +kernel
  obtain ⟨-,-,-,hlive,-⟩ := nested_scopes hreached nestedProg hcalls
  refine ⟨A,hA,hlive,?_⟩
  cases hA
  decide +kernel

end FastArena.Nesting
