import FastArena.RegistryBuffer
import FastArena.Relocation

/-!
# The same program on two arenas

Two runs of the same calls, on arenas that the system allocator put in
different places. As long as it grants the same layouts in both, every region
lies at the same offset of the same block, and positions, counts, budgets and
destructor calls are the same. With destructors that do not panic, regions and
counts are the same even when only one of the two builds tracks destructors, and
its registry is refused buffers: all that shows is the panic of the call whose
value could not be registered.
-/

set_option autoImplicit false

namespace FastArena.RelocatedRuns
open FastArena.MachineWord FastArena.ByteSpan FastArena.ArenaBlock FastArena.InlineStorage
  FastArena.DropTracking FastArena.ArenaCore FastArena.ArenaInvariant FastArena.RawRequest
  FastArena.ArenaSweep FastArena.ArenaRequests FastArena.ArenaTransaction FastArena.LabelledRun
  FastArena.ArenaWorld FastArena.ArenaSteps FastArena.DropOrder FastArena.BlocksTouched
  FastArena.RegistryBuffer FastArena.Relocation

/-- The same call of the program; the allocators behind it agree on what they grant. -/
inductive SameCall : Op → Op → Prop where
  | request {sys sys' : SystemAlloc} (hagree : Agree sys sys') (r : Request) :
      SameCall (.request sys r) (.request sys' r)
  | guarded {sys sys' : SystemAlloc} (hagree : Agree sys sys') (r : Request) :
      SameCall (.guarded sys r) (.guarded sys' r)
  | checkpoint : SameCall .checkpoint .checkpoint
  | rewind (boom : ℕ → ℕ → Bool) (stamp : ℕ) : SameCall (.rewind boom stamp) (.rewind boom stamp)
  | reset (boom : ℕ → ℕ → Bool) : SameCall (.reset boom) (.reset boom)
  | begin : SameCall .begin .begin
  | commit : SameCall .commit .commit
  | rollback (boom : ℕ → ℕ → Bool) : SameCall (.rollback boom) (.rollback boom)
  | setLimit (bytes : ℕ) : SameCall (.setLimit bytes) (.setLimit bytes)

def Portable (w : World) (op : Op) : Prop :=
  Honest w op ∧ match op with
    | .request _ r => Measured r
    | .guarded _ r => Measured r
    | _ => True

def Sweeps (boom : ℕ → ℕ → Bool) : Op → Prop
  | .rewind b _ => b = boom
  | .reset b => b = boom
  | .rollback b => b = boom
  | _ => False

def siteAt (g : Grant) : ℕ × ℕ × ℕ × ℕ × ℕ :=
  (g.stamp,g.lane,g.offset,g.region.span.size,g.region.align)

section pairs
variable (K : ℕ → ℕ → Prop)

structure SameMark (m m' : Mark) : Prop where
  stamp : m'.stamp = m.stamp
  place : SamePlace m.cp m'.cp
  owed : K m.cp.dropRegistryLen m'.cp.dropRegistryLen

structure SameOpen (f f' : Open) : Prop where
  stamp : f'.stamp = f.stamp
  place : SamePlace f.txn.checkpoint f'.txn.checkpoint
  owed : K f.txn.checkpoint.dropRegistryLen f'.txn.checkpoint.dropRegistryLen
  bytesAtOpen : f'.txn.bytesAtOpen = f.txn.bytesAtOpen
  blockAtOpen : f'.txn.blockAtOpen = f.txn.blockAtOpen
  depth : f'.txn.depth = f.txn.depth
  limit : f'.txn.limit = f.txn.limit

structure Mirrored (w w' : World) : Prop where
  arena : SameArena w.arena w'.arena
  clock : w'.clock = w.clock
  live : w'.live.map siteAt = w.live.map siteAt
  issued : w'.issued.map siteAt = w.issued.map siteAt
  marks : List.Forall₂ (SameMark K) w.marks w'.marks
  valid : w'.valid = w.valid
  opened : List.Forall₂ (SameOpen K) w.opened w'.opened

end pairs

section guards
variable {A A' : Arena} {sys sys' : SystemAlloc} {K : ℕ → ℕ → Prop} {f f' : Open}

theorem bytesUsed_same (h : SameArena A A') (hf : SameOpen K f f') :
    f'.txn.bytesUsed A' = f.txn.bytesUsed A := by
  unfold Transaction.bytesUsed
  rw [h.stock.allocated, h.offset, hf.bytesAtOpen]

theorem guarded_same (h : SameArena A A') (hf : SameOpen K f f') (fallible : Bool) (n lost : ℕ)
    {call call' : Outcome} (hcall : SameOutcome call call') :
    SameOutcome (f.txn.guarded A fallible n lost call)
      (f'.txn.guarded A' fallible n lost call') := by
  have hok : f'.txn.budgetOk A' n = f.txn.budgetOk A n := by
    unfold Transaction.budgetOk
    rw [hf.limit, bytesUsed_same h hf]
  have hwords : f'.txn.budgetPanic A' n = f.txn.budgetPanic A n := by
    unfold Transaction.budgetPanic
    rw [hf.limit, bytesUsed_same h hf]
  unfold Transaction.guarded
  rw [hok, hwords]
  split
  · exact hcall
  · exact same_answer h _ _

theorem txn_serve_same (h : SameArena A A') (hA : Wf A) (hA' : Wf A') (hs : Grants sys A.blocks)
    (hs' : Grants sys' A'.blocks) (hagree : Agree sys sys') (hf : SameOpen K f f') {r : Request}
    (hr : Measured r) : SameOutcome (f.txn.serve sys A r) (f'.txn.serve sys' A' r) := by
  have hserve := serve_same h hA hA' hs hs' hagree hr
  obtain ⟨kind,fallible⟩ := r
  cases kind <;> cases fallible <;>
    first
      | exact guarded_same h hf _ _ _ hserve
      | exact same_answer h _ _

end guards

section worlds
variable {K : ℕ → ℕ → Prop} {w w' : World}

theorem grantOf_same (hclock : w'.clock = w.clock) {o o' : Outcome}
    (hsite : siteOf o' = siteOf o) :
    (w'.grantOf o').map siteAt = (w.grantOf o).map siteAt := by
  unfold siteOf at hsite
  unfold World.grantOf
  cases hc : o.carved with
  | none =>
    rw [hc, Option.map_none, Option.map_eq_none_iff] at hsite
    rw [hsite]
  | some region =>
    rw [hc, Option.map_some, Option.map_eq_some_iff] at hsite
    obtain ⟨region',hc',heq⟩ := hsite
    simp only [Prod.mk.injEq] at heq
    obtain ⟨hlane,hoffset,hsize,halign⟩ := heq
    simp only [hc', List.map_cons, List.map_nil, siteAt, hclock, hlane, hoffset, hsize, halign]

theorem mirrored_take (h : Mirrored K w w') {o o' : Outcome} (harena : SameArena o.arena o'.arena)
    (hsite : siteOf o' = siteOf o) : Mirrored K (w.take o) (w'.take o') where
  arena := harena
  clock := congrArg (·+1) h.clock
  live := by
    have hgrant := grantOf_same h.clock hsite
    simp only [World.take, List.map_append, hgrant, h.live]
  issued := by
    have hgrant := grantOf_same h.clock hsite
    simp only [World.take, List.map_append, hgrant, h.issued]
  marks := h.marks
  valid := h.valid
  opened := h.opened

theorem mirrored_tick (h : Mirrored K w w') : Mirrored K w.tick w'.tick :=
  ⟨h.arena,congrArg (·+1) h.clock,h.live,h.issued,h.marks,h.valid,h.opened⟩

theorem mirrored_note (h : Mirrored K w w')
    (hlen : K w.arena.dropRegistry.len w'.arena.dropRegistry.len) :
    Mirrored K (w.note w.arena.checkpoint) (w'.note w'.arena.checkpoint) where
  arena := h.arena
  clock := congrArg (·+1) h.clock
  live := h.live
  issued := h.issued
  marks := .cons ⟨h.clock,samePlace_checkpoint h.arena,hlen⟩ h.marks
  valid := by rw [World.note, World.note, h.clock, h.valid]
  opened := h.opened

theorem mirrored_sweep (h : Mirrored K w w') {s s' : Swept} (since : ℕ)
    (harena : SameArena s.arena s'.arena) (hpanic : s'.panic = s.panic) :
    Mirrored K (w.sweep s since) (w'.sweep s' since) where
  arena := harena
  clock := congrArg (·+1) h.clock
  live := by
    have hfilter : ∀ gs : List Grant, (gs.filter (·.stamp < since)).map siteAt =
        (gs.map siteAt).filter (fun site => site.1 < since) := by
      intro gs
      rw [List.filter_map]
      rfl
    simp only [World.sweep, hpanic]
    split
    · rw [hfilter, hfilter, h.live]
    · exact h.live
  issued := h.issued
  marks := h.marks
  valid := by rw [World.sweep, World.sweep, h.valid]
  opened := h.opened

theorem mirrored_opened (h : Mirrored K w w') {A A' : Arena} {opened opened' : List Open}
    (harena : SameArena A A') (hopened : List.Forall₂ (SameOpen K) opened opened') :
    Mirrored K { w with arena := A, opened := opened } { w' with arena := A', opened := opened' } :=
  ⟨harena,h.clock,h.live,h.issued,h.marks,h.valid,hopened⟩

theorem sameArena_depth {A A' : Arena} (h : SameArena A A') (f : ℕ → ℕ) :
    SameArena { A with txnDepth := f A.txnDepth } { A' with txnDepth := f A'.txnDepth } :=
  ⟨⟨h.stock.blocks,h.stock.growth,h.stock.allocated,h.stock.reserved,congrArg f h.stock.depth,
    h.stock.high,h.stock.roomIdx⟩,h.room,h.current,h.offset⟩

theorem markAt_same (h : Mirrored K w w') (stamp : ℕ) :
    (w.markAt stamp = none ∧ w'.markAt stamp = none) ∨
      ∃ m m', w.markAt stamp = some m ∧ w'.markAt stamp = some m' ∧ SameMark K m m' := by
  have hmarks := h.marks
  unfold World.markAt
  generalize w.marks = ms, w'.marks = ms' at hmarks ⊢
  induction hmarks with
  | nil => exact Or.inl ⟨rfl,rfl⟩
  | cons hm _ ih =>
    rw [List.find?_cons, List.find?_cons, hm.stamp]
    split
    · exact Or.inr ⟨_,_,rfl,rfl,hm⟩
    · exact ih

theorem opened_same (h : Mirrored K w w') : (w.opened = [] ∧ w'.opened = []) ∨
    ∃ f rest f' rest', w.opened = f::rest ∧ w'.opened = f'::rest' ∧ SameOpen K f f' ∧
      List.Forall₂ (SameOpen K) rest rest' := by
  have hopened := h.opened
  generalize w.opened = fs, w'.opened = fs' at hopened
  cases hopened with
  | nil => exact Or.inl ⟨rfl,rfl⟩
  | cons hf hrest => exact Or.inr ⟨_,_,_,_,rfl,rfl,hf,hrest⟩

theorem reply_same (hinv : Inv w) (hinv' : Inv w') (h : Mirrored K w w') {op op' : Op}
    (hcall : SameCall op op') (hop : Portable w op) (hop' : Honest w' op') :
    (reply w op = none ∧ reply w' op' = none) ∨
      ∃ o o', reply w op = some o ∧ reply w' op' = some o' ∧ SameOutcome o o' := by
  cases hcall with
  | request hagree r =>
    exact Or.inr ⟨_,_,rfl,rfl,serve_same h.arena hinv.wf hinv'.wf hop.1.1 hop'.1 hagree hop.2⟩
  | guarded hagree r =>
    unfold reply
    rcases opened_same h with ⟨hnone,hnone'⟩ | ⟨f,rest,f',rest',hsome,hsome',hf,-⟩
    · rw [hnone, hnone']
      exact Or.inl ⟨rfl,rfl⟩
    · rw [hsome, hsome']
      exact Or.inr ⟨_,_,rfl,rfl,
        txn_serve_same h.arena hinv.wf hinv'.wf hop.1.1 hop'.1 hagree hf hop.2⟩
  | _ => exact Or.inl ⟨rfl,rfl⟩

/-- What the two registries have to agree on for a call to do the same in both worlds: their
lengths, if a checkpoint is taken, and whether a destructor panics, if some are run. -/
structure InStep (K : ℕ → ℕ → Prop) (w w' : World) (op : Op) : Prop where
  len : K w.arena.dropRegistry.len w'.arena.dropRegistry.len
  start : K 0 0
  panics : ∀ boom, Sweeps boom op → ∀ n n', K n n' →
    (w'.arena.dropRegistry.runDropsUntil boom n').2.2 =
      (w.arena.dropRegistry.runDropsUntil boom n).2.2

theorem mirrored_step (hinv : Inv w) (hinv' : Inv w') (h : Mirrored K w w') {op op' : Op}
    (hcall : SameCall op op') (hop : Portable w op) (hop' : Honest w' op')
    (hstep : InStep K w w' op) : Mirrored K (w.step op) (w'.step op') := by
  cases hcall with
  | request hagree r =>
    have hsame := serve_same h.arena hinv.wf hinv'.wf hop.1.1 hop'.1 hagree hop.2
    exact mirrored_take h hsame.arena hsame.site
  | guarded hagree r =>
    rcases opened_same h with ⟨hnone,hnone'⟩ | ⟨f,rest,f',rest',hsome,hsome',hf,-⟩
    · simp only [World.step, hnone, hnone']
      exact mirrored_tick h
    · simp only [World.step, hsome, hsome']
      have hsame := txn_serve_same h.arena hinv.wf hinv'.wf hop.1.1 hop'.1 hagree hf hop.2
      exact mirrored_take h hsame.arena hsame.site
  | checkpoint => exact mirrored_note h hstep.len
  | rewind boom stamp =>
    rcases markAt_same h stamp with ⟨hnone,hnone'⟩ | ⟨m,m',hsome,hsome',hm⟩
    · simp only [World.step, hnone, hnone']
      exact mirrored_tick h
    · simp only [World.step, hsome, hsome']
      rw [hm.stamp]
      obtain ⟨harena,hpanic⟩ := rewind_same h.arena hinv.wf hinv'.wf
        (hinv.recallable m (List.mem_of_find?_eq_some hsome))
        (hinv'.recallable m' (List.mem_of_find?_eq_some hsome')) hm.place
        (hstep.panics boom rfl _ _ hm.owed)
      exact mirrored_sweep h m.stamp harena hpanic
  | reset boom =>
    obtain ⟨harena,hpanic⟩ := reset_same h.arena hinv.wf hinv'.wf
      (hstep.panics boom rfl 0 0 hstep.start)
    exact mirrored_sweep h 0 harena hpanic
  | begin =>
    have hplace := samePlace_checkpoint h.arena
    exact mirrored_opened (mirrored_note h hstep.len) (sameArena_depth h.arena (wadd · 1))
      (.cons ⟨h.clock,hplace,hstep.len,hplace.bytes,hplace.blockIdx,
        congrArg (wadd · 1) h.arena.stock.depth,rfl⟩ h.opened)
  | commit =>
    rcases opened_same h with ⟨hnone,hnone'⟩ | ⟨f,rest,f',rest',hsome,hsome',-,hrest⟩
    · simp only [World.step, hnone, hnone']
      exact mirrored_tick h
    · simp only [World.step, hsome, hsome']
      exact mirrored_opened (mirrored_tick h) (sameArena_depth h.arena (wsub · 1)) hrest
  | rollback boom =>
    rcases opened_same h with ⟨hnone,hnone'⟩ | ⟨f,rest,f',rest',hsome,hsome',hf,hrest⟩
    · simp only [World.step, hnone, hnone']
      exact mirrored_tick h
    · have hmem : f ∈ w.opened := hsome ▸ List.mem_cons_self
      have hmem' : f' ∈ w'.opened := hsome' ▸ List.mem_cons_self
      simp only [World.step, hsome, hsome']
      rw [drop_eq hinv hmem boom, drop_eq hinv' hmem' boom, hf.stamp]
      obtain ⟨harena,hpanic⟩ := rewind_same (sameArena_depth h.arena (· - 1))
        (wf_txnDepth hinv.wf _) (wf_txnDepth hinv'.wf _)
        (hinv.recallable _ (hinv.opened f hmem).1) (hinv'.recallable _ (hinv'.opened f' hmem').1)
        hf.place (hstep.panics boom rfl _ _ hf.owed)
      have hswept := mirrored_sweep h f.stamp harena hpanic
      exact mirrored_opened hswept harena hrest
  | setLimit bytes =>
    rcases opened_same h with ⟨hnone,hnone'⟩ | ⟨f,rest,f',rest',hsome,hsome',hf,hrest⟩
    · simp only [World.step, hnone, hnone']
      exact mirrored_tick h
    · simp only [World.step, hsome, hsome']
      exact mirrored_opened (mirrored_tick h) h.arena (.cons
        ⟨hf.stamp,hf.place,hf.owed,hf.bytesAtOpen,hf.blockAtOpen,hf.depth,rfl⟩ hrest)

theorem registering_kept (slot : Ty) (sys : SystemAlloc) (r : DropRegistry) (o : Outcome) :
    (∃ d, (registering slot sys r o).arena = { o.arena with dropRegistry := d }) ∧
      siteOf (registering slot sys r o) = siteOf o := by
  unfold registering
  cases refusal slot sys r o with
  | none => exact ⟨⟨o.arena.dropRegistry,rfl⟩,rfl⟩
  | some message => exact ⟨⟨r,rfl⟩,rfl⟩

theorem mirrored_call (slot : Ty) (hinv : Inv w) (hinv' : Inv w') (h : Mirrored K w w')
    {c c' : Call} (hcall : SameCall c.1 c'.1) (hop : Portable w c.1) (hop' : Honest w' c'.1)
    (hstep : InStep K w w' c.1) :
    Mirrored K (RegistryBuffer.step slot w c) (RegistryBuffer.step slot w' c') := by
  unfold RegistryBuffer.step answered
  rcases reply_same hinv hinv' h hcall hop hop' with
    ⟨hnone,hnone'⟩ | ⟨o,o',hsome,hsome',hsame⟩
  · rw [hnone, hnone']
    exact mirrored_step hinv hinv' h hcall hop hop' hstep
  · obtain ⟨⟨d,harena⟩,hsite⟩ := registering_kept slot c.2 w.arena.dropRegistry o
    obtain ⟨⟨d',harena'⟩,hsite'⟩ := registering_kept slot c'.2 w'.arena.dropRegistry o'
    rw [hsome, hsome']
    apply mirrored_take h
    · rw [harena, harena']
      exact sameArena_registry hsame.arena d d'
    · rw [hsite, hsite', hsame.site]

/-- Unless a registration is refused the two answers are the same. -/
theorem answered_same {slot : Ty} (hinv : Inv w) (hinv' : Inv w') (h : Mirrored K w w')
    {c c' : Call} (hcall : SameCall c.1 c'.1) (hop : Portable w c.1) (hop' : Honest w' c'.1)
    {o o' : Outcome} (ho : answered slot w c = some o) (ho' : answered slot w' c' = some o') :
    SameOutcome o o' ∨ RegistryBuffer.Refused slot w c ∨ RegistryBuffer.Refused slot w' c' := by
  by_cases hgranted : RegistryBuffer.Refused slot w c ∨ RegistryBuffer.Refused slot w' c'
  · exact Or.inr hgranted
  · obtain ⟨hkept,hkept'⟩ := not_or.mp hgranted
    rw [answered_granted hkept] at ho
    rw [answered_granted hkept'] at ho'
    rcases reply_same hinv hinv' h hcall hop hop' with ⟨hnone,-⟩ | ⟨p,p',hsome,hsome',hsame⟩
    · exact nomatch hnone.symm.trans ho
    · obtain rfl := Option.some.inj (hsome.symm.trans ho)
      obtain rfl := Option.some.inj (hsome'.symm.trans ho')
      exact Or.inl hsame

end worlds

def shapeOf (slot : DropSlot) : ℕ × Ty := (slot.count,slot.ty)

def callShape (c : DropCall) : ℕ × ℕ × ℕ × Ty := (c.entry,c.elem,shapeOf c.slot)

def dropShape (d : Drop) : ℕ × ℕ × ℕ × ℕ × Ty := (d.time,d.owner,d.elem,shapeOf d.slot)

structure SameRegistry (r r' : DropRegistry) : Prop where
  tracking : r'.isTracking = r.isTracking
  entries : r'.entries.map shapeOf = r.entries.map shapeOf

section registries
variable {r r' : DropRegistry} {boom : ℕ → ℕ → Bool}

theorem runElems_shape {slot slot' : DropSlot} (h : shapeOf slot' = shapeOf slot) (b : ℕ → Bool)
    (entry n i : ℕ) : (runElems b entry slot' n i).1.map callShape =
      (runElems b entry slot n i).1.map callShape := by
  have hcall : ∀ e, callShape ⟨entry,e,slot'⟩ = callShape ⟨entry,e,slot⟩ := by
    intro e
    rw [callShape, callShape, h]
  induction n generalizing i with
  | zero => rfl
  | succ n ih =>
    unfold runElems
    by_cases hb : b i = true
    · rw [if_pos hb, if_pos hb, List.map_singleton, List.map_singleton, hcall]
    · rw [if_neg hb, if_neg hb]
      dsimp only
      rw [List.map_cons, List.map_cons, hcall, ih]

theorem callsUntil_shape {es es' : List DropSlot} (h : es'.map shapeOf = es.map shapeOf)
    (target : ℕ) :
    (callsUntil boom target es').map callShape = (callsUntil boom target es).map callShape := by
  have hview : ∀ l : List DropSlot, (callsUntil boom target l).map callShape =
      (((l.map shapeOf).zipIdx.drop target).reverse.flatMap
        (fun e => (runSlot boom e.2 (.range 0 e.1.1 e.1.2)).1.map callShape)) := by
    intro l
    rw [List.zipIdx_map, ← List.map_drop, ← List.map_reverse, List.flatMap_map, callsUntil,
      List.map_flatMap]
    apply List.flatMap_congr
    intro e _
    have hshape : shapeOf e.1 = shapeOf (.range 0 (shapeOf e.1).1 (shapeOf e.1).2) := rfl
    exact runElems_shape hshape _ _ _ _
  rw [hview, hview, h]

theorem len_same (h : SameRegistry r r') : r'.len = r.len := by
  have hlen := congrArg List.length h.entries
  rwa [List.length_map, List.length_map, ← DropRegistry.len_entries, ← DropRegistry.len_entries]
    at hlen

theorem checkpoint_same {A A' : Arena} (h : SameArena A A')
    (hregistry : SameRegistry A.dropRegistry A'.dropRegistry) : A'.checkpoint = A.checkpoint := by
  unfold Arena.checkpoint
  rw [h.current, h.offset, h.stock.allocated, len_same hregistry]

theorem panics_same (h : SameRegistry r r') (target : ℕ) :
    (r'.runDropsUntil boom target).2.2 = (r.runDropsUntil boom target).2.2 := by
  have hslot : ∀ {es es' : List DropSlot}, es'.map shapeOf = es.map shapeOf →
      ∀ {k : ℕ} {slot : DropSlot}, es[k]? = some slot →
        ∃ slot' : DropSlot, es'[k]? = some slot' ∧ slot'.count = slot.count := by
    intro es es' hes k slot hk
    have hat := congrArg (·[k]?) hes
    rw [List.getElem?_map, List.getElem?_map, hk, Option.map_some, Option.map_eq_some_iff] at hat
    obtain ⟨slot',hk',hshape⟩ := hat
    exact ⟨slot',hk',congrArg Prod.fst hshape⟩
  have himp : ∀ {s s' : DropRegistry}, s'.entries.map shapeOf = s.entries.map shapeOf →
      (s.runDropsUntil boom target).2.2 = true → (s'.runDropsUntil boom target).2.2 = true := by
    intro s s' hes hp
    rw [DropRegistry.panicked_runDropsUntil] at hp ⊢
    obtain ⟨k,slot,e,hle,hk,he,hb⟩ := hp
    obtain ⟨slot',hk',hcount⟩ := hslot hes hk
    exact ⟨k,slot',e,hle,hk',hcount.symm ▸ he,hb⟩
  exact Bool.eq_iff_iff.mpr ⟨himp h.entries.symm,himp h.entries⟩

theorem sameRegistry_swept (h : SameRegistry r r') (target : ℕ) :
    SameRegistry (r.runDropsUntil boom target).2.1 (r'.runDropsUntil boom target).2.1 where
  tracking := by
    rw [DropRegistry.isTracking_runDropsUntil, DropRegistry.isTracking_runDropsUntil, h.tracking]
  entries := by
    rw [DropRegistry.entries_runDropsUntil, DropRegistry.entries_runDropsUntil, List.map_take,
      List.map_take, h.entries]

end registries

structure Owing (w w' : World) : Prop where
  registry : SameRegistry w.arena.dropRegistry w'.arena.dropRegistry
  owners : w'.owners = w.owners
  drops : w'.drops.map dropShape = w.drops.map dropShape

section owed
variable {w w' : World}

theorem owing_take (h : Owing w w') (hclock : w'.clock = w.clock) {o o' : Outcome}
    (hregistry : SameRegistry o.arena.dropRegistry o'.arena.dropRegistry) :
    Owing (w.take o) (w'.take o') where
  registry := hregistry
  owners := by
    rw [World.take, World.take, h.owners, len_same hregistry, len_same h.registry, hclock]
  drops := h.drops

theorem owing_sweep (h : Owing w w') (hclock : w'.clock = w.clock) (since target : ℕ)
    {boom : ℕ → ℕ → Bool} {s s' : Swept}
    (hcalls : s.calls = callsUntil boom target w.arena.dropRegistry.entries)
    (hcalls' : s'.calls = callsUntil boom target w'.arena.dropRegistry.entries)
    (hreg : s.arena.dropRegistry = (w.arena.dropRegistry.runDropsUntil boom target).2.1)
    (hreg' : s'.arena.dropRegistry = (w'.arena.dropRegistry.runDropsUntil boom target).2.1) :
    Owing (w.sweep s since) (w'.sweep s' since) := by
  have hregistry : SameRegistry s.arena.dropRegistry s'.arena.dropRegistry := by
    rw [hreg, hreg']
    exact sameRegistry_swept h.registry target
  have hview : ∀ (v : World) (cs : List DropCall),
      (cs.map (fun c => (⟨v.clock,v.owners.getD c.entry 0,c.elem,c.slot⟩ : Drop))).map dropShape =
        (cs.map callShape).map (fun c => (v.clock,v.owners.getD c.1 0,c.2.1,c.2.2)) := by
    intro v cs
    rw [List.map_map, List.map_map]
    rfl
  refine ⟨hregistry,?_,?_⟩
  · rw [World.sweep, World.sweep, h.owners, len_same hregistry]
  · simp only [World.sweep, List.map_append, hview, h.drops]
    rw [hcalls, hcalls', callsUntil_shape h.registry.entries, hclock, h.owners]

theorem owing_rewind (hwf : Wf w.arena) (hwf' : Wf w'.arena) (h : Owing w w')
    (hclock : w'.clock = w.clock) (boom : ℕ → ℕ → Bool) (n n' : ℕ) {cp cp' : Checkpoint}
    (hcp : Recallable w.arena.blocks cp) (hcp' : Recallable w'.arena.blocks cp')
    (howed : cp.dropRegistryLen = cp'.dropRegistryLen) (since : ℕ) :
    Owing (w.sweep (Arena.rewind boom { w.arena with txnDepth := n } cp) since)
      (w'.sweep (Arena.rewind boom { w'.arena with txnDepth := n' } cp') since) := by
  obtain ⟨hcalls,hreg,-⟩ := rewind_cases boom (wf_txnDepth hwf n) hcp
  obtain ⟨hcalls',hreg',-⟩ := rewind_cases boom (wf_txnDepth hwf' n') hcp'
  rw [← howed] at hcalls' hreg'
  exact owing_sweep h hclock since cp.dropRegistryLen hcalls hcalls' hreg hreg'

def Added (A : Arena) (k : Kind) (o : Outcome) : Prop :=
  (o.carved = none ∧ o.arena.dropRegistry = A.dropRegistry) ∨ ∃ p, o.carved ≠ none ∧
    o.arena.dropRegistry.isTracking = A.dropRegistry.isTracking ∧
      o.arena.dropRegistry.entries = A.dropRegistry.entries ++
        (if A.dropRegistry.isTracking then k.owed p else [])

theorem added_served {sys : SystemAlloc} {A : Arena} {r : Request} {o : Outcome}
    (h : Served sys A r o) : Added A r.kind o := by
  cases h with
  | @carved size align p A₁ o hd hpow hend hcarved hcarve hfills =>
    obtain ⟨registry,harena,htracking,hentries⟩ := hfills.arena_eq
    rw [hcarved.registry] at htracking hentries
    exact Or.inr ⟨p,by rw [hcarve]; exact Option.some_ne_none _,
      by rw [harena]; exact htracking,by rw [harena]; exact hentries⟩
  | failed hd hpow hend hret hunmoved => exact Or.inl ⟨rfl,hunmoved.registry⟩
  | answered hd => exact Or.inl ⟨rfl,rfl⟩

theorem added_guarded {sys : SystemAlloc} {A : Arena} (hA : Wf A) (hs : Grants sys A.blocks)
    {r : Request} (hr : r.Typed) (t : Transaction) : Added A r.kind (t.serve sys A r) := by
  rcases txn_served hA hs hr t with hserved | ⟨ret,-,lost,heq⟩
  · exact added_served hserved
  · rw [heq]
    exact Or.inl ⟨rfl,rfl⟩

theorem owed_shape (k : Kind) (p p' : ℕ) : (k.owed p').map shapeOf = (k.owed p).map shapeOf := by
  cases k with
  | value ty => rw [Kind.owed, Kind.owed]; split <;> rfl
  | slice ty len yields => rw [Kind.owed, Kind.owed]; split <;> rfl
  | sliceCopy ty len => rw [Kind.owed, Kind.owed]; split <;> rfl
  | _ => rfl

theorem sameRegistry_added {A A' : Arena} {k : Kind} {o o' : Outcome}
    (h : SameRegistry A.dropRegistry A'.dropRegistry) (ho : SameOutcome o o')
    (hadded : Added A k o) (hadded' : Added A' k o') :
    SameRegistry o.arena.dropRegistry o'.arena.dropRegistry := by
  have hboth : o'.carved = none ↔ o.carved = none := by
    have hsite := ho.site
    unfold siteOf at hsite
    rw [← Option.map_eq_none_iff, hsite, Option.map_eq_none_iff]
  rcases hadded with ⟨hnone,heq⟩ | ⟨p,hsome,htracking,hentries⟩
  · rcases hadded' with ⟨-,heq'⟩ | ⟨-,hsome',-⟩
    · rw [heq, heq']
      exact h
    · exact absurd (hboth.mpr hnone) hsome'
  · rcases hadded' with ⟨hnone',-⟩ | ⟨p',-,htracking',hentries'⟩
    · exact absurd (hboth.mp hnone') hsome
    · refine ⟨by rw [htracking, htracking', h.tracking],?_⟩
      rw [hentries, hentries', List.map_append, List.map_append, h.entries, h.tracking]
      split
      · rw [owed_shape k p p']
      · rfl

theorem owing_step (hinv : Inv w) (hinv' : Inv w') (h : Mirrored Eq w w') (ho : Owing w w')
    {op op' : Op} (hcall : SameCall op op') (hop : Portable w op) (hop' : Honest w' op') :
    Owing (w.step op) (w'.step op') := by
  have htick : Owing w.tick w'.tick := ⟨ho.registry,ho.owners,ho.drops⟩
  cases hcall with
  | request hagree r =>
    have hsame := serve_same h.arena hinv.wf hinv'.wf hop.1.1 hop'.1 hagree hop.2
    exact owing_take ho h.clock (sameRegistry_added ho.registry hsame
      (added_served (serve_served hinv.wf hop.1.1 hop.1.2))
      (added_served (serve_served hinv'.wf hop'.1 hop'.2)))
  | guarded hagree r =>
    rcases opened_same h with ⟨hnone,hnone'⟩ | ⟨f,rest,f',rest',hsome,hsome',hf,-⟩
    · simp only [World.step, hnone, hnone']
      exact htick
    · simp only [World.step, hsome, hsome']
      have hsame := txn_serve_same h.arena hinv.wf hinv'.wf hop.1.1 hop'.1 hagree hf hop.2
      exact owing_take ho h.clock (sameRegistry_added ho.registry hsame
        (added_guarded hinv.wf hop.1.1 hop.1.2 f.txn)
        (added_guarded hinv'.wf hop'.1 hop'.2 f'.txn))
  | checkpoint => exact ⟨ho.registry,ho.owners,ho.drops⟩
  | rewind boom stamp =>
    rcases markAt_same h stamp with ⟨hnone,hnone'⟩ | ⟨m,m',hsome,hsome',hm⟩
    · simp only [World.step, hnone, hnone']
      exact htick
    · simp only [World.step, hsome, hsome']
      rw [hm.stamp]
      exact owing_rewind hinv.wf hinv'.wf ho h.clock boom w.arena.txnDepth w'.arena.txnDepth
        (hinv.recallable m (List.mem_of_find?_eq_some hsome))
        (hinv'.recallable m' (List.mem_of_find?_eq_some hsome')) hm.owed m.stamp
  | reset boom =>
    obtain ⟨hcalls,hreg,-⟩ := reset_cases boom hinv.wf
    obtain ⟨hcalls',hreg',-⟩ := reset_cases boom hinv'.wf
    exact owing_sweep ho h.clock 0 0 hcalls hcalls' hreg hreg'
  | begin => exact ⟨ho.registry,ho.owners,ho.drops⟩
  | commit =>
    rcases opened_same h with ⟨hnone,hnone'⟩ | ⟨f,rest,f',rest',hsome,hsome',-,-⟩
    · simp only [World.step, hnone, hnone']
      exact htick
    · simp only [World.step, hsome, hsome']
      exact ⟨ho.registry,ho.owners,ho.drops⟩
  | rollback boom =>
    rcases opened_same h with ⟨hnone,hnone'⟩ | ⟨f,rest,f',rest',hsome,hsome',hf,-⟩
    · simp only [World.step, hnone, hnone']
      exact htick
    · have hmem : f ∈ w.opened := hsome ▸ List.mem_cons_self
      have hmem' : f' ∈ w'.opened := hsome' ▸ List.mem_cons_self
      simp only [World.step, hsome, hsome']
      rw [drop_eq hinv hmem boom, drop_eq hinv' hmem' boom, hf.stamp]
      obtain ⟨hregistry,howners,hdrops⟩ :=
        owing_rewind hinv.wf hinv'.wf ho h.clock boom (w.arena.txnDepth-1) (w'.arena.txnDepth-1)
          (hinv.recallable _ (hinv.opened f hmem).1) (hinv'.recallable _ (hinv'.opened f' hmem').1)
          hf.owed f.stamp
      exact ⟨hregistry,howners,hdrops⟩
  | setLimit bytes =>
    rcases opened_same h with ⟨hnone,hnone'⟩ | ⟨f,rest,f',rest',hsome,hsome',-,-⟩
    · simp only [World.step, hnone, hnone']
      exact htick
    · simp only [World.step, hsome, hsome']
      exact ⟨ho.registry,ho.owners,ho.drops⟩

end owed

section runs
variable {sys sys' : SystemAlloc} {feature feature' : Bool} {initialBytes : ℕ} {A A' : Arena}
  {K : ℕ → ℕ → Prop}

theorem same_created (hs : Grants sys (InlineVec.new : Blocks))
    (hs' : Grants sys' (InlineVec.new : Blocks)) (hagree : Agree sys sys')
    (hA : Arena.withCapacity sys feature initialBytes = some A)
    (hA' : Arena.withCapacity sys' feature' initialBytes = some A') : SameArena A A' := by
  obtain ⟨-,-,hoffset,-⟩ := wf_withCapacity hs hA
  obtain ⟨-,-,hoffset',-⟩ := wf_withCapacity hs' hA'
  unfold Arena.withCapacity at hA hA'
  dsimp only at hA hA'
  rcases tryNew_same hagree (max initialBytes minBlockSize) minBlockAlign with
    ⟨hnew,-⟩ | ⟨b,b',hnew,hnew',hb⟩
  · rw [hnew] at hA
    cases hA
  · rw [hnew] at hA
    rw [hnew'] at hA'
    cases hA
    cases hA'
    have hempty : SameBlocks (InlineVec.new : Blocks) (InlineVec.new : Blocks) :=
      ⟨rfl,fun i hi => absurd hi (Nat.not_lt_zero i)⟩
    exact ⟨⟨sameBlocks_push hempty hb,rfl,rfl,rfl,rfl,rfl,rfl⟩,rfl,rfl,hoffset'.trans hoffset.symm⟩

theorem mirrored_start (h : SameArena A A') : Mirrored K (World.start A) (World.start A') :=
  ⟨h,rfl,rfl,rfl,.nil,rfl,.nil⟩

theorem inv_created (hs : Grants sys (InlineVec.new : Blocks))
    (hA : Arena.withCapacity sys feature initialBytes = some A) : Inv (World.start A) := by
  obtain ⟨hwf,-,-,-,-,hregistry⟩ := wf_withCapacity hs hA
  exact inv_start hwf (by rw [hregistry, DropRegistry.entries_new])

theorem inStep_registry {w w' : World} (h : SameRegistry w.arena.dropRegistry w'.arena.dropRegistry)
    (op : Op) : InStep Eq w w' op where
  len := (len_same h).symm
  start := rfl
  panics := by
    rintro boom - n n' rfl
    exact panics_same h n

theorem inStep_quiet {w w' : World} {op : Op} (hquiet : Quiet op) :
    InStep (fun _ _ => True) w w' op where
  len := trivial
  start := trivial
  panics := by
    intro boom hsweeps n n' _
    have hboom : boom = quiet := by
      cases op with
      | rewind b stamp => exact hsweeps.symm.trans hquiet
      | reset b => exact hsweeps.symm.trans hquiet
      | rollback b => exact hsweeps.symm.trans hquiet
      | _ => exact hsweeps.elim
    rw [hboom, DropRegistry.panicked_runDropsUntil_quiet,
      DropRegistry.panicked_runDropsUntil_quiet]

/-- What a program can see of mirrored worlds. -/
theorem mirrored_seen {w w' : World} (h : Mirrored K w w') :
    w'.arena.stats = w.arena.stats ∧
      w'.opened.map (fun f => (f.txn.diff w'.arena,f.txn.budgetRemaining w'.arena)) =
        w.opened.map (fun f => (f.txn.diff w.arena,f.txn.budgetRemaining w.arena)) := by
  have hstock := h.arena.stock
  refine ⟨?_,?_⟩
  · unfold Arena.stats
    rw [hstock.allocated, hstock.reserved, h.arena.offset, hstock.blocks.len]
  · have hopened := h.opened
    generalize w.opened = fs, w'.opened = fs' at hopened
    induction hopened with
    | nil => rfl
    | cons hf _ ih =>
      rw [List.map_cons, List.map_cons, ih]
      unfold Transaction.diff Transaction.budgetRemaining
      rw [bytesUsed_same h.arena hf, h.arena.current, hf.blockAtOpen, hf.limit]

end runs

theorem agree_oneBlock (capacity base base' : ℕ) :
    Agree (oneBlock capacity base) (oneBlock capacity base') := by
  intro c a
  unfold oneBlock
  split <;> rfl

def movedCalls (base : ℕ) : List Op :=
  [.request noMemory ⟨.value eightBytes,false⟩,.begin,
    .guarded (oneBlock 128 base) ⟨.str 100,true⟩,.rollback quiet,
    .request noMemory ⟨.str 100,false⟩]

theorem measured_value (fallible : Bool) : Measured ⟨.value eightBytes,fallible⟩ := by
  refine ⟨trivial,?_⟩
  intro size align hd
  rw [Kind.demand] at hd
  obtain ⟨-,rfl,rfl⟩ := demand_unless hd
  decide

theorem measured_str {len : ℕ} (hlen : len < 2^63) (fallible : Bool) :
    Measured ⟨.str len,fallible⟩ := by
  refine ⟨hlen,?_⟩
  intro size align hd
  rw [Kind.demand] at hd
  obtain ⟨-,rfl,rfl⟩ := demand_unless hd
  exact ⟨hlen,by decide⟩

theorem same_movedCalls (base base' : ℕ) :
    List.Forall₂ SameCall (movedCalls base) (movedCalls base') := by
  have hnone : Agree noMemory noMemory := fun _ _ => rfl
  exact .cons (.request hnone _) (.cons .begin (.cons (.guarded (agree_oneBlock _ _ _) _)
    (.cons (.rollback _) (.cons (.request hnone _) .nil))))

theorem portable_movedCalls {feature : Bool} {A : Arena} (hA : smallArena feature 64 = some A) :
    Along World.step Portable (World.start A) (movedCalls 8192) := by
  have hlen : 100 < 2^63 := by norm_num
  refine ⟨⟨⟨grants_noMemory _,trivial⟩,measured_value _⟩,⟨trivial,trivial⟩,
    ⟨⟨?_,hlen⟩,measured_str hlen _⟩,⟨trivial,trivial⟩,
    ⟨⟨grants_noMemory _,hlen⟩,measured_str hlen _⟩,trivial⟩
  cases feature <;> cases hA <;>
    exact grants_second ⟨128,rfl⟩ (by norm_num [addressTop]) (by decide +kernel)
      (by decide +kernel) (by norm_num)

/-- Two runs of one program over allocators that grant the same layouts: whatever the addresses,
each region is at the same offset of the same block, the same destructors run on the same elements
at the same times, and counts, checkpoints, budgets and the answer to any next request are the
same. -/
theorem runs_relocate {sys sys' : SystemAlloc} {feature : Bool} {initialBytes : ℕ}
    {A A' : Arena} {ops ops' : List Op} (hs : Grants sys (InlineVec.new : Blocks))
    (hs' : Grants sys' (InlineVec.new : Blocks)) (hagree : Agree sys sys')
    (hA : Arena.withCapacity sys feature initialBytes = some A)
    (hA' : Arena.withCapacity sys' feature initialBytes = some A')
    (hcalls : List.Forall₂ SameCall ops ops') (hops : Along World.step Portable (World.start A) ops)
    (hops' : Along World.step Honest (World.start A') ops') :
    let w := run World.step (World.start A) ops
    let w' := run World.step (World.start A') ops'
    w'.arena.stats = w.arena.stats ∧ w'.arena.checkpoint = w.arena.checkpoint ∧
      w'.issued.map siteAt = w.issued.map siteAt ∧ w'.live.map siteAt = w.live.map siteAt ∧
      w'.drops.map dropShape = w.drops.map dropShape ∧
      w'.opened.map (fun f => (f.txn.diff w'.arena,f.txn.budgetRemaining w'.arena)) =
        w.opened.map (fun f => (f.txn.diff w.arena,f.txn.budgetRemaining w.arena)) ∧
      ∀ (s s' : SystemAlloc) (r : Request), Agree s s' → Grants s w.arena.blocks →
        Grants s' w'.arena.blocks → Measured r →
          SameOutcome (r.serve s w.arena) (r.serve s' w'.arena) := by
  intro w w'
  have hregistry : SameRegistry A.dropRegistry A'.dropRegistry := by
    obtain ⟨-,-,-,-,-,hnew⟩ := wf_withCapacity hs hA
    obtain ⟨-,-,-,-,-,hnew'⟩ := wf_withCapacity hs' hA'
    rw [hnew, hnew']
    exact ⟨rfl,rfl⟩
  obtain ⟨hinv,hinv',hmirror,howing⟩ := run_lockstep World.step Portable World.step Honest
    (fun v v' => Inv v ∧ Inv v' ∧ Mirrored Eq v v' ∧ Owing v v') SameCall
    (fun v v' op op' ⟨hv,hv',hm,ho⟩ hcall hop hop' => ⟨inv_step hv hop.1,inv_step hv' hop',
      mirrored_step hv hv' hm hcall hop hop' (inStep_registry ho.registry op),
      owing_step hv hv' hm ho hcall hop hop'⟩)
    (World.start A) (World.start A') hcalls
    ⟨inv_created hs hA,inv_created hs' hA',mirrored_start (same_created hs hs' hagree hA hA'),
      ⟨hregistry,rfl,rfl⟩⟩ hops hops'
  obtain ⟨hstats,hbudgets⟩ := mirrored_seen hmirror
  exact ⟨hstats,checkpoint_same hmirror.arena howing.registry,hmirror.issued,hmirror.live,howing.drops,hbudgets,
    fun s s' r hag hgrants hgrants' hr =>
      serve_same hmirror.arena hinv.wf hinv'.wf hgrants hgrants' hag hr⟩

theorem runs_relocate_movedCalls : ∃ A A', smallArena true 64 = some A ∧
    Arena.withCapacity (oneBlock 64 64000) true 64 = some A' ∧
      (run World.step (World.start A) (movedCalls 8192)).arena.curBase = 8192 ∧
      (run World.step (World.start A') (movedCalls 256000)).arena.curBase = 256000 ∧
      (run World.step (World.start A') (movedCalls 256000)).issued.map siteAt =
        (run World.step (World.start A) (movedCalls 8192)).issued.map siteAt := by
  obtain ⟨A,hA⟩ : ∃ A, smallArena true 64 = some A := ⟨_,rfl⟩
  obtain ⟨A',hA'⟩ : ∃ A', Arena.withCapacity (oneBlock 64 64000) true 64 = some A' := ⟨_,rfl⟩
  have hops := portable_movedCalls hA
  have hlen : 100 < 2^63 := by norm_num
  have hops' : Along World.step Honest (World.start A') (movedCalls 256000) := by
    refine ⟨⟨grants_noMemory _,trivial⟩,trivial,⟨?_,hlen⟩,trivial,⟨grants_noMemory _,hlen⟩,trivial⟩
    cases hA'
    exact grants_second ⟨4000,rfl⟩ (by norm_num [addressTop]) (by decide +kernel)
      (by decide +kernel) (by norm_num)
  have hs' : Grants (oneBlock 64 64000) (InlineVec.new : Blocks) :=
    grants_oneBlock (by norm_num) ⟨1000,rfl⟩ (by norm_num [addressTop])
      (fun i hi => absurd hi (Nat.not_lt_zero i))
  obtain ⟨-,-,hissued,-⟩ := runs_relocate (grants_small (by norm_num)) hs'
    (agree_oneBlock 64 4096 64000) hA hA' (same_movedCalls 8192 256000) hops hops'
  refine ⟨A,A',hA,hA',?_,?_,hissued⟩
  · cases hA
    decide +kernel
  · cases hA'
    decide +kernel

/-- The calls of one program, whatever the two registries are told when they ask for a buffer. -/
def SameCalls (cs cs' : List Call) : Prop := List.Forall₂ (fun c c' => SameCall c.1 c'.1) cs cs'

/-- Whether a build tracks destructors cannot be told from what it allocates: as long as none of
them panics, two runs of one program, one with the feature and one without, put every region at the
same offset of the same block, and count and limit alike, also when the registry is refused a
buffer. Any next call is answered alike unless its own registration is refused. -/
theorem tracking_unseen {slot : Ty} {sys sys' : SystemAlloc} {feature feature' : Bool}
    {initialBytes : ℕ} {A A' : Arena} {cs cs' : List Call}
    (hs : Grants sys (InlineVec.new : Blocks)) (hs' : Grants sys' (InlineVec.new : Blocks))
    (hagree : Agree sys sys') (hA : Arena.withCapacity sys feature initialBytes = some A)
    (hA' : Arena.withCapacity sys' feature' initialBytes = some A') (hcalls : SameCalls cs cs')
    (hcs : Along (RegistryBuffer.step slot) (fun w c => Portable w c.1 ∧ Quiet c.1)
      (World.start A) cs)
    (hcs' : Along (RegistryBuffer.step slot) HonestCall (World.start A') cs') :
    let w := run (RegistryBuffer.step slot) (World.start A) cs
    let w' := run (RegistryBuffer.step slot) (World.start A') cs'
    w'.arena.stats = w.arena.stats ∧ SamePlace w.arena.checkpoint w'.arena.checkpoint ∧
      w'.issued.map siteAt = w.issued.map siteAt ∧ w'.live.map siteAt = w.live.map siteAt ∧
      w'.opened.map (fun f => (f.txn.diff w'.arena,f.txn.budgetRemaining w'.arena)) =
        w.opened.map (fun f => (f.txn.diff w.arena,f.txn.budgetRemaining w.arena)) ∧
      ∀ c c' o o', SameCall c.1 c'.1 → Portable w c.1 → HonestCall w' c' →
        answered slot w c = some o → answered slot w' c' = some o' →
          SameOutcome o o' ∨ RegistryBuffer.Refused slot w c ∨
            RegistryBuffer.Refused slot w' c' := by
  intro w w'
  obtain ⟨hinv,hinv',hmirror⟩ := run_lockstep (RegistryBuffer.step slot)
    (fun v c => Portable v c.1 ∧ Quiet c.1) (RegistryBuffer.step slot) HonestCall
    (fun v v' => Inv v ∧ Inv v' ∧ Mirrored (fun _ _ => True) v v')
    (fun c c' => SameCall c.1 c'.1)
    (fun v v' c c' ⟨hv,hv',hm⟩ hcall hop hop' => ⟨inv_call hv hop.1.1,inv_call hv' hop',
      mirrored_call slot hv hv' hm hcall hop.1 hop' (inStep_quiet hop.2)⟩)
    (World.start A) (World.start A') hcalls
    ⟨inv_created hs hA,inv_created hs' hA',mirrored_start (same_created hs hs' hagree hA hA')⟩
    hcs hcs'
  obtain ⟨hstats,hbudgets⟩ := mirrored_seen hmirror
  exact ⟨hstats,samePlace_checkpoint hmirror.arena,hmirror.issued,hmirror.live,hbudgets,
    fun c c' o o' hcall hop hop' ho ho' => answered_same hinv hinv' hmirror hcall hop hop' ho ho'⟩

theorem portable_values (n : ℕ) (w : World) :
    Along (RegistryBuffer.step fourWords) (fun w c => Portable w c.1 ∧ Quiet c.1) w
      (List.replicate n valueCall) := by
  induction n generalizing w with
  | zero => trivial
  | succ n ih => exact ⟨⟨⟨⟨grants_noMemory _,trivial⟩,measured_value _⟩,trivial⟩,ih _⟩

theorem same_leakingCalls : SameCalls leakingCalls leakingCalls := by
  have hvalue : SameCall valueCall.1 valueCall.1 := .request (fun _ _ => rfl) _
  exact List.rel_append (List.forall₂_same.mpr (fun c hc => by
    rw [List.eq_of_mem_replicate hc]
    exact hvalue)) (.cons (.reset _) .nil)

theorem tracking_unseen_leakingCalls : ∃ A A', smallArena true 512 = some A ∧
    smallArena false 512 = some A' ∧
      (run (RegistryBuffer.step fourWords) (World.start A) leakingCalls).drops.length = 32 ∧
      (run (RegistryBuffer.step fourWords) (World.start A') leakingCalls).drops.length = 0 ∧
      (run (RegistryBuffer.step fourWords) (World.start A') leakingCalls).issued.map siteAt =
        (run (RegistryBuffer.step fourWords) (World.start A) leakingCalls).issued.map siteAt := by
  obtain ⟨A,hA⟩ : ∃ A, smallArena true 512 = some A := ⟨_,rfl⟩
  obtain ⟨A',hA'⟩ : ∃ A', smallArena false 512 = some A' := ⟨_,rfl⟩
  have hcs : Along (RegistryBuffer.step fourWords) (fun w c => Portable w c.1 ∧ Quiet c.1)
      (World.start A) leakingCalls :=
    (along_append _ _ _ _ _).mpr ⟨portable_values 33 _,⟨⟨trivial,trivial⟩,rfl⟩,trivial⟩
  have hcs' : Along (RegistryBuffer.step fourWords) HonestCall (World.start A') leakingCalls :=
    (along_append _ _ _ _ _).mpr ⟨honest_values 33 _,trivial,trivial⟩
  obtain ⟨-,-,hissued,-⟩ := tracking_unseen (grants_small (by norm_num)) (grants_small (by norm_num))
    (fun _ _ => rfl) hA hA' same_leakingCalls hcs hcs'
  refine ⟨A,A',hA,hA',?_,?_,hissued⟩
  · cases hA
    decide +kernel
  · cases hA'
    decide +kernel

end FastArena.RelocatedRuns
