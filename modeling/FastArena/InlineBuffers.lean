import FastArena.InlineRefinement
import FastArena.SystemCalls

/-!
# The buffer of an inline vector

A vector that outgrows its inline cells takes a buffer, and gives it back for
one of twice the size whenever it is full. What it has taken and not given back
is the buffer it has, which goes when the vector is dropped. The buffers double,
so there are few of them, and few elements are moved between them.
-/

set_option autoImplicit false

namespace FastArena.InlineBuffers
open FastArena.MachineWord FastArena.ArenaBlock FastArena.InlineStorage FastArena.LabelledRun
  FastArena.SystemHeap FastArena.SystemCalls FastArena.HeapBuffer FastArena.InlineRefinement
open FastArena.ArenaWorld (eightBytes)

variable {α : Type}

/-- A vector and the pointer in its `HeapBuf`, which is one while the vector is on the heap. -/
structure Buffered (α : Type) where
  raw : RawVec α
  ptr : ℕ

structure Effect (α : Type) where
  res : Except String (Buffered α)
  events : List Event
  moved : ℕ

def heapEvents (sys : SystemAlloc) (ty : Ty) (cap : ℕ) : List Event :=
  if layoutFits (cap*ty.size) ty.align then
    if cap*ty.size = 0 then []
    else
      match sys (cap*ty.size) ty.align with
      | none => [.decline (cap*ty.size) ty.align]
      | some ptr => [.acquire ⟨ptr,cap*ty.size,ty.align⟩]
  else []

def dealloc (ty : Ty) (ptr cap : ℕ) : List Event :=
  if cap*ty.size > 0 then [.release ⟨ptr,cap*ty.size,ty.align⟩] else []

def promoteAndPush (N : ℕ) (sys : SystemAlloc) (ty : Ty) (v : Buffered α) (a : α) : Effect α :=
  match checkedMul N 2 with
  | none => ⟨.error "InlineVec: capacity overflow",[],0⟩
  | some newCap =>
    match heapAlloc sys ty newCap with
    | .error message => ⟨.error message,heapEvents sys ty newCap,0⟩
    | .ok ptr => ⟨.ok ⟨v.raw.promoteAndPush N a,ptr⟩,heapEvents sys ty newCap,N⟩

def heapGrow (sys : SystemAlloc) (ty : Ty) (v : Buffered α) : Effect α :=
  let oldCap := v.raw.data.asHeap.length
  match checkedMul oldCap 2 with
  | none => ⟨.error "InlineVec: capacity overflow",[],0⟩
  | some newCap =>
    match heapAlloc sys ty newCap with
    | .error message => ⟨.error message,heapEvents sys ty newCap,0⟩
    | .ok ptr =>
      if layoutFits (oldCap*ty.size) ty.align then
        ⟨.ok ⟨v.raw.heapGrow,ptr⟩,heapEvents sys ty newCap ++ dealloc ty v.ptr oldCap,v.raw.len⟩
      else ⟨.error "InlineVec: layout overflow",heapEvents sys ty newCap,v.raw.len⟩

def writeLast (v : Buffered α) (a : α) : Buffered α :=
  { v with raw := { v.raw with
    data := .heap (v.raw.data.asHeap.set v.raw.len (some a))
    len := v.raw.len+1 } }

def pushSlow (N : ℕ) (sys : SystemAlloc) (ty : Ty) (v : Buffered α) (a : α) : Effect α :=
  if v.raw.onHeap then
    let grown := if v.raw.len = v.raw.data.asHeap.length then heapGrow sys ty v else ⟨.ok v,[],0⟩
    match grown.res with
    | .error message => ⟨.error message,grown.events,grown.moved⟩
    | .ok w => ⟨.ok (writeLast w a),grown.events,grown.moved⟩
  else promoteAndPush N sys ty v a

def push (N : ℕ) (sys : SystemAlloc) (ty : Ty) (v : Buffered α) (a : α) : Effect α :=
  if v.raw.onHeap = false ∧ v.raw.len < N then
    ⟨.ok { v with raw := { v.raw with
      data := .inline (v.raw.data.asInline.set v.raw.len (some a))
      len := v.raw.len+1 } },[],0⟩
  else pushSlow N sys ty v a

structure Dropped (α : Type) where
  calls : List (Option α)
  panic : Option String
  events : List Event

def destructorPanic : String := "destructor panicked"

-- `Drop for InlineVec`. A destructor that panics unwinds past the deallocation.
def drop (ty : Ty) (boom : α → Bool) (v : Buffered α) : Dropped α :=
  let dropped := InlineRefinement.drop ty boom v.raw
  if dropped.2 then ⟨dropped.1,some destructorPanic,[]⟩
  else if v.raw.onHeap then
    if layoutFits (v.raw.data.asHeap.length*ty.size) ty.align then
      ⟨dropped.1,none,dealloc ty v.ptr v.raw.data.asHeap.length⟩
    else ⟨dropped.1,some "InlineVec: layout overflow on drop",[]⟩
  else ⟨dropped.1,none,[]⟩

def piece (ty : Ty) (ptr cap : ℕ) : List Chunk :=
  if cap*ty.size > 0 then [⟨ptr,cap*ty.size,ty.align⟩] else []

def buffer (ty : Ty) (v : Buffered α) : List Chunk :=
  if v.raw.onHeap then piece ty v.ptr v.raw.data.asHeap.length else []

/-- A vector, its calls on the system allocator so far, the elements moved by them, and the most it
has held. -/
structure State (α : Type) where
  vec : Buffered α
  events : List Event
  moved : ℕ
  peak : ℕ

def start (N : ℕ) : State α := ⟨⟨RawVec.new N,0⟩,[],0,0⟩

def pushed (s : State α) (e : Effect α) : State α :=
  let vec := match e.res with
    | .ok v => v
    | .error _ => s.vec
  ⟨vec,s.events ++ e.events,s.moved + e.moved,max s.peak vec.raw.len⟩

def step (N : ℕ) (ty : Ty) (s : State α) : Op α → State α
  | .push sys a => pushed s (push N sys ty s.vec a)
  | op => { s with vec := { s.vec with raw := (op.apply N ty s.vec.raw).1 } }

section effects
variable {N : ℕ} {sys : SystemAlloc} {ty : Ty} {v : Buffered α} {a : α}

def acquired (ty : Ty) (ptr cap : ℕ) : List Event :=
  if cap*ty.size > 0 then [.acquire ⟨ptr,cap*ty.size,ty.align⟩] else []

structure InVain (es : List Event) : Prop where
  declines : Declines es
  legal : AllLegal es

inductive Pushed (N : ℕ) (sys : SystemAlloc) (ty : Ty) (v : Buffered α) (a : α) :
    Effect α → Prop where
  | fits (hroom : v.raw.len ≠ capacity N v.raw) :
      Pushed N sys ty v a ⟨.ok ⟨v.raw.push N a,v.ptr⟩,[],0⟩
  | refused {message : String} {es : List Event} (hfull : v.raw.len = capacity N v.raw)
      (hpanic : pushPanic N sys ty v.raw = some message) (hvain : InVain es) :
      Pushed N sys ty v a ⟨.error message,es,0⟩
  | doubled {ptr : ℕ} (hpanic : pushPanic N sys ty v.raw = none)
      (hfull : v.raw.len = capacity N v.raw)
      (hlayout : layoutFits (capacity N v.raw*2*ty.size) ty.align) :
      Pushed N sys ty v a ⟨.ok ⟨v.raw.push N a,ptr⟩,
        acquired ty ptr (capacity N v.raw*2) ++
          if v.raw.onHeap then dealloc ty v.ptr (capacity N v.raw) else [],capacity N v.raw⟩

theorem inVain_nil : InVain [] := ⟨nofun,nofun⟩

theorem heapAlloc_cases (sys : SystemAlloc) (ty : Ty) (cap : ℕ) :
    (∃ message, heapAlloc sys ty cap = .error message ∧ InVain (heapEvents sys ty cap)) ∨
    layoutFits (cap*ty.size) ty.align ∧ ∃ ptr, heapAlloc sys ty cap = .ok ptr ∧
      heapEvents sys ty cap = acquired ty ptr cap := by
  unfold heapAlloc heapEvents acquired
  by_cases hfits : layoutFits (cap*ty.size) ty.align
  · rw [if_pos hfits, if_pos hfits]
    by_cases hzero : cap*ty.size = 0
    · rw [if_pos hzero, if_pos hzero]
      exact Or.inr ⟨hfits,ty.align,rfl,by rw [if_neg (by omega)]⟩
    · rw [if_neg hzero, if_neg hzero]
      cases sys (cap*ty.size) ty.align with
      | none =>
        refine Or.inl ⟨_,rfl,declines_decline _ _,allLegal_singleton ?_⟩
        rintro _ ⟨⟩
        exact ⟨Nat.pos_of_ne_zero hzero,hfits⟩
      | some ptr => exact Or.inr ⟨hfits,ptr,rfl,by rw [if_pos (by omega)]⟩
  · rw [if_neg hfits, if_neg hfits]
    exact Or.inl ⟨_,rfl,inVain_nil⟩

/-- A buffer of twice the size is a word of elements, and is had or not. -/
theorem double_cases (sys : SystemAlloc) (ty : Ty) (cap : ℕ) :
    (checkedMul cap 2 = none ∧ doublePanic sys ty cap = some "InlineVec: capacity overflow") ∨
    (checkedMul cap 2 = some (cap*2) ∧ ∃ message, doublePanic sys ty cap = some message ∧
      heapAlloc sys ty (cap*2) = .error message ∧ InVain (heapEvents sys ty (cap*2))) ∨
    (checkedMul cap 2 = some (cap*2) ∧ doublePanic sys ty cap = none ∧
      layoutFits (cap*2*ty.size) ty.align ∧ ∃ ptr, heapAlloc sys ty (cap*2) = .ok ptr ∧
        heapEvents sys ty (cap*2) = acquired ty ptr (cap*2)) := by
  unfold doublePanic
  cases hmul : checkedMul cap 2 with
  | none => exact Or.inl ⟨rfl,rfl⟩
  | some newCap =>
    obtain ⟨rfl,-⟩ := checkedMul_some hmul
    dsimp only
    rcases heapAlloc_cases sys ty (cap*2) with ⟨message,heq,hvain⟩ | ⟨hfits,ptr,heq,hevents⟩
    · rw [heq]
      exact Or.inr (Or.inl ⟨rfl,message,rfl,rfl,hvain⟩)
    · rw [heq]
      exact Or.inr (Or.inr ⟨rfl,rfl,hfits,ptr,rfl,hevents⟩)

theorem promoteAndPush_cases :
    (∃ message es, doublePanic sys ty N = some message ∧ InVain es ∧
      promoteAndPush N sys ty v a = ⟨.error message,es,0⟩) ∨
    doublePanic sys ty N = none ∧ layoutFits (N*2*ty.size) ty.align ∧
      ∃ ptr, promoteAndPush N sys ty v a =
        ⟨.ok ⟨v.raw.promoteAndPush N a,ptr⟩,acquired ty ptr (N*2),N⟩ := by
  unfold promoteAndPush
  rcases double_cases sys ty N with ⟨hmul,hpanic⟩ | ⟨hmul,message,hpanic,heq,hvain⟩ |
    ⟨hmul,hpanic,hfits,ptr,heq,hevents⟩
  · rw [hmul]
    exact Or.inl ⟨_,_,hpanic,inVain_nil,rfl⟩
  · rw [hmul]
    dsimp only
    rw [heq]
    exact Or.inl ⟨_,_,hpanic,hvain,rfl⟩
  · rw [hmul]
    dsimp only
    rw [heq, hevents]
    exact Or.inr ⟨hpanic,hfits,ptr,rfl⟩

/-- The layout of the old buffer, computed again to give it back, is a layout still. -/
theorem heapGrow_cases
    (hlayout : layoutFits (v.raw.data.asHeap.length*ty.size) ty.align) :
    (∃ message es, doublePanic sys ty v.raw.data.asHeap.length = some message ∧ InVain es ∧
      heapGrow sys ty v = ⟨.error message,es,0⟩) ∨
    doublePanic sys ty v.raw.data.asHeap.length = none ∧
      layoutFits (v.raw.data.asHeap.length*2*ty.size) ty.align ∧
      ∃ ptr, heapGrow sys ty v = ⟨.ok ⟨v.raw.heapGrow,ptr⟩,
        acquired ty ptr (v.raw.data.asHeap.length*2) ++
          dealloc ty v.ptr v.raw.data.asHeap.length,v.raw.len⟩ := by
  unfold heapGrow
  dsimp only
  rcases double_cases sys ty v.raw.data.asHeap.length with
    ⟨hmul,hpanic⟩ | ⟨hmul,message,hpanic,heq,hvain⟩ | ⟨hmul,hpanic,hfits,ptr,heq,hevents⟩
  · rw [hmul]
    exact Or.inl ⟨_,_,hpanic,inVain_nil,rfl⟩
  · rw [hmul]
    dsimp only
    rw [heq]
    exact Or.inl ⟨_,_,hpanic,hvain,rfl⟩
  · rw [hmul]
    dsimp only
    rw [heq, hevents]
    dsimp only
    rw [if_pos hlayout]
    exact Or.inr ⟨hpanic,hfits,ptr,rfl⟩

theorem push_inline (hinline : v.raw.onHeap = false) (hlt : v.raw.len < N) :
    Pushed N sys ty v a (push N sys ty v a) := by
  have hcap : capacity N v.raw = N := if_neg (by rw [hinline]; exact Bool.false_ne_true)
  have hpush : v.raw.push N a = { v.raw with
      data := .inline (v.raw.data.asInline.set v.raw.len (some a))
      len := v.raw.len+1 } := if_pos ⟨hinline,hlt⟩
  unfold push
  rw [if_pos ⟨hinline,hlt⟩, ← hpush]
  exact .fits (by omega)

theorem push_promoted (hwf : v.raw.Wf N) (hinline : v.raw.onHeap = false) (hlen : v.raw.len = N) :
    Pushed N sys ty v a (push N sys ty v a) := by
  have hno : v.raw.onHeap ≠ true := by
    rw [hinline]
    exact Bool.false_ne_true
  have hcap : capacity N v.raw = N := if_neg hno
  have hfull : v.raw.len = capacity N v.raw := hlen.trans hcap.symm
  have hslow : ¬ (v.raw.onHeap = false ∧ v.raw.len < N) := fun hh => absurd hh.2 (by omega)
  have hpush : v.raw.push N a = v.raw.promoteAndPush N a := (if_neg hslow).trans (if_neg hno)
  have hcall : push N sys ty v a = promoteAndPush N sys ty v a :=
    (if_neg hslow).trans (if_neg hno)
  have hpanic : pushPanic N sys ty v.raw = doublePanic sys ty N := by
    rw [pushPanic_full hwf, if_pos hfull, hcap]
  rw [hcall]
  rcases @promoteAndPush_cases α N sys ty v a with
    ⟨message,es,hrefused,hvain,heq⟩ | ⟨hnone,hfits,ptr,heq⟩
  · rw [heq]
    exact .refused hfull (hpanic.trans hrefused) hvain
  · have hdoubled := @Pushed.doubled α N sys ty v a ptr (hpanic.trans hnone) hfull
      (hcap.symm ▸ hfits)
    rw [if_neg hno, List.append_nil, hcap, hpush] at hdoubled
    rw [heq]
    exact hdoubled

theorem push_grown (hwf : v.raw.Wf N) (hheap : v.raw.onHeap = true)
    (hlayout : layoutFits (v.raw.data.asHeap.length*ty.size) ty.align)
    (hlen : v.raw.len = v.raw.data.asHeap.length) :
    Pushed N sys ty v a (push N sys ty v a) := by
  have hcap : capacity N v.raw = v.raw.data.asHeap.length := if_pos hheap
  have hfull : v.raw.len = capacity N v.raw := hlen.trans hcap.symm
  have hslow : ¬ (v.raw.onHeap = false ∧ v.raw.len < N) :=
    fun hh => Bool.false_ne_true (hh.1.symm.trans hheap)
  have hpush : v.raw.push N a = v.raw.pushSlow N a := if_neg hslow
  have hpanic : pushPanic N sys ty v.raw = doublePanic sys ty v.raw.data.asHeap.length := by
    rw [pushPanic_full hwf, if_pos hfull, hcap]
  unfold push
  rw [if_neg hslow]
  unfold pushSlow
  rw [if_pos hheap]
  dsimp only
  rw [if_pos hlen]
  rcases @heapGrow_cases α sys ty v hlayout with
    ⟨message,es,hrefused,hvain,heq⟩ | ⟨hnone,hfits,ptr,heq⟩
  · rw [heq]
    exact .refused hfull (hpanic.trans hrefused) hvain
  · have hdoubled := @Pushed.doubled α N sys ty v a ptr (hpanic.trans hnone) hfull
      (hcap.symm ▸ hfits)
    rw [if_pos hheap, hcap, hpush] at hdoubled
    unfold RawVec.pushSlow at hdoubled
    rw [if_pos hheap, if_pos hlen] at hdoubled
    rw [heq]
    dsimp only
    rw [hlen]
    exact hdoubled

theorem push_roomy (hheap : v.raw.onHeap = true) (hroom : v.raw.len ≠ v.raw.data.asHeap.length) :
    Pushed N sys ty v a (push N sys ty v a) := by
  have hcap : capacity N v.raw = v.raw.data.asHeap.length := if_pos hheap
  have hslow : ¬ (v.raw.onHeap = false ∧ v.raw.len < N) :=
    fun hh => Bool.false_ne_true (hh.1.symm.trans hheap)
  have hpush : v.raw.push N a = v.raw.pushSlow N a := if_neg hslow
  have hfits := @Pushed.fits α N sys ty v a (hcap.symm ▸ hroom)
  rw [hpush] at hfits
  unfold RawVec.pushSlow at hfits
  rw [if_pos hheap, if_neg hroom] at hfits
  unfold push
  rw [if_neg hslow]
  unfold pushSlow
  rw [if_pos hheap]
  dsimp only
  rw [if_neg hroom]
  exact hfits

theorem push_cases (hlayout : v.raw.onHeap = true →
      layoutFits (v.raw.data.asHeap.length*ty.size) ty.align)
    (hwf : v.raw.Wf N) : Pushed N sys ty v a (push N sys ty v a) := by
  have hroom := hwf.room
  rw [← capacity_cells hwf] at hroom
  cases hheap : v.raw.onHeap with
  | false =>
    have hcap : capacity N v.raw = N := if_neg (by rw [hheap]; exact Bool.false_ne_true)
    by_cases hlt : v.raw.len < N
    · exact push_inline hheap hlt
    · exact push_promoted hwf hheap (by omega)
  | true =>
    by_cases hfull : v.raw.len = v.raw.data.asHeap.length
    · exact push_grown hwf hheap (hlayout hheap) hfull
    · exact push_roomy hheap hfull

end effects

def NoPush : Op α → Prop
  | .push _ _ => False
  | _ => True

structure SameRoom (v w : RawVec α) : Prop where
  onHeap : w.onHeap = v.onHeap
  length : v.onHeap = true → w.data.asHeap.length = v.data.asHeap.length

section room
variable {N : ℕ} {ty : Ty} {v w : RawVec α}

theorem sameRoom_refl (v : RawVec α) : SameRoom v v := ⟨rfl,fun _ => rfl⟩

theorem sameRoom_trans {u : RawVec α} (h : SameRoom v w) (h' : SameRoom w u) : SameRoom v u :=
  ⟨h'.onHeap.trans h.onHeap,
    fun hheap => (h'.length (h.onHeap.trans hheap)).trans (h.length hheap)⟩

theorem sameRoom_capacity (h : SameRoom v w) : capacity N w = capacity N v := by
  unfold capacity
  rw [h.onHeap]
  cases hheap : v.onHeap with
  | false => rfl
  | true =>
    rw [if_pos rfl, if_pos rfl]
    exact h.length hheap

theorem sameRoom_modify (v : RawVec α) (i : ℕ) (f : α → α) : SameRoom v (v.modify i f) := by
  unfold RawVec.modify
  split
  · exact ⟨rfl,fun _ => List.length_set⟩
  · next hinline => exact ⟨rfl,fun hheap => absurd hheap hinline⟩

theorem sameRoom_iterMut (f : ℕ → α → α) (v : RawVec α) (n : ℕ) :
    SameRoom v (iterMut f v n) := by
  induction n with
  | zero => exact sameRoom_refl v
  | succ n ih => exact sameRoom_trans ih (sameRoom_modify _ _ _)

theorem sameRoom_pop (v : RawVec α) : SameRoom v v.pop.2 := by
  unfold RawVec.pop
  split <;> exact ⟨rfl,fun _ => rfl⟩

theorem sameRoom_apply {op : Op α} (hop : NoPush op) :
    SameRoom v (op.apply N ty v).1 := by
  cases op with
  | push sys a => exact hop.elim
  | pop => exact sameRoom_pop v
  | get i => exact sameRoom_refl v
  | getMut i f => exact sameRoom_modify v i f
  | index i =>
    simp only [Op.apply]
    split <;> exact sameRoom_refl v
  | indexMut i f =>
    simp only [Op.apply]
    split
    · exact sameRoom_modify v i f
    · exact sameRoom_refl v
  | iterMut f => exact sameRoom_iterMut f v v.len

theorem sameRoom_push (h : v.Wf N) (a : α) (hroom : v.len ≠ capacity N v) :
    SameRoom v (v.push N a) := by
  unfold RawVec.push
  split
  · next hinline => exact ⟨rfl,fun hheap => nomatch hheap.symm.trans hinline.1⟩
  · next hslow =>
    unfold RawVec.pushSlow
    split
    · next hheap =>
      have hcap : capacity N v = v.data.asHeap.length := if_pos hheap
      rw [if_neg (hcap ▸ hroom)]
      exact ⟨rfl,fun _ => List.length_set⟩
    · next hinline =>
      have hcap : capacity N v = N := if_neg hinline
      have hle := h.room
      rw [← capacity_cells h] at hle
      exact absurd ⟨Bool.eq_false_iff.mpr hinline,by omega⟩ hslow

theorem onHeap_push (a : α) (hfull : v.len = capacity N v) : (v.push N a).onHeap = true := by
  unfold RawVec.push
  split
  · next hinline =>
    have hcap : capacity N v = N := if_neg (by simp [hinline.1])
    omega
  · unfold RawVec.pushSlow
    split
    · next hheap =>
      dsimp only
      split <;> exact hheap
    · rfl

end room

def isAcquire : Event → Bool
  | .acquire _ => true
  | _ => false

/-- After so many doublings. The peak is more than half of what there is room for. -/
structure Doubled (N : ℕ) (ty : Ty) (s : State α) (k : ℕ) : Prop where
  cap_eq : capacity N s.vec.raw = N * 2^k
  onHeap_iff : s.vec.raw.onHeap = true ↔ 0 < k
  moved_eq : s.moved + N = N * 2^k
  acquires : s.events.countP isAcquire = if ty.size = 0 then 0 else k
  ungranted : k = 0 → Declines s.events
  peak_gt : 0 < k → N * 2^(k-1) < s.peak

structure Balanced (N : ℕ) (ty : Ty) (s : State α) : Prop where
  layout : s.vec.raw.onHeap = true →
    layoutFits (s.vec.raw.data.asHeap.length*ty.size) ty.align
  settled : ∀ cs, Settles cs s.events (buffer ty s.vec ++ cs)
  legal : AllLegal s.events
  unasked : s.peak < N → s.events = []
  len_le : s.vec.raw.len ≤ s.peak
  doubled : ∃ k, Doubled N ty s k

section balanced
variable {N : ℕ} {ty : Ty} {s s' : State α}

theorem buffer_same {v w : Buffered α} (h : SameRoom v.raw w.raw) (hptr : w.ptr = v.ptr) :
    buffer ty w = buffer ty v := by
  unfold buffer
  rw [h.onHeap, hptr]
  split
  · next hheap => rw [h.length hheap]
  · rfl

theorem countP_declines {es : List Event} (h : Declines es) : es.countP isAcquire = 0 := by
  rw [List.countP_eq_zero]
  intro e he
  obtain ⟨size,align,rfl⟩ := h e he
  exact Bool.false_ne_true

theorem balanced_same {es : List Event} (h : Balanced N ty s)
    (hroom : SameRoom s.vec.raw s'.vec.raw) (hptr : s'.vec.ptr = s.vec.ptr)
    (hevents : s'.events = s.events ++ es) (hvain : InVain es) (hmoved : s'.moved = s.moved)
    (hpeak : s.peak ≤ s'.peak) (hlen : s'.vec.raw.len ≤ s'.peak)
    (hasked : s'.peak < N → es = []) : Balanced N ty s' where
  layout := by
    intro hheap
    have hheap' := hroom.onHeap.symm.trans hheap
    rw [hroom.length hheap']
    exact h.layout hheap'
  settled := by
    intro cs
    rw [hevents, buffer_same hroom hptr]
    exact settles_append (h.settled cs) (settles_declines hvain.declines _)
  legal := by
    rw [hevents]
    exact allLegal_append h.legal hvain.legal
  unasked := by
    intro hsmall
    rw [hevents, h.unasked (hpeak.trans_lt hsmall), hasked hsmall]
    rfl
  len_le := hlen
  doubled := by
    obtain ⟨k,hk⟩ := h.doubled
    refine ⟨k,?_,?_,?_,?_,fun hzero => ?_,fun hpos => (hk.peak_gt hpos).trans_le hpeak⟩
    · exact (sameRoom_capacity hroom).trans hk.cap_eq
    · rw [hroom.onHeap]
      exact hk.onHeap_iff
    · rw [hmoved]
      exact hk.moved_eq
    · rw [hevents, List.countP_append, countP_declines hvain.declines]
      exact hk.acquires
    · rw [hevents]
      exact declines_append (hk.ungranted hzero) hvain.declines

theorem balanced_still (h : Balanced N ty s) (hroom : SameRoom s.vec.raw s'.vec.raw)
    (hptr : s'.vec.ptr = s.vec.ptr) (hevents : s'.events = s.events) (hmoved : s'.moved = s.moved)
    (hpeak : s.peak ≤ s'.peak) (hlen : s'.vec.raw.len ≤ s'.peak) : Balanced N ty s' :=
  balanced_same h hroom hptr (hevents.trans (List.append_nil _).symm) inVain_nil hmoved hpeak hlen
    (fun _ => rfl)

theorem settles_acquired (ptr cap : ℕ) (cs : List Chunk) :
    Settles cs (acquired ty ptr cap) (piece ty ptr cap ++ cs) := by
  unfold acquired piece
  split
  · exact settles_acquire _ cs
  · exact settles_nil cs

theorem settles_dealloc (ptr cap : ℕ) (cs : List Chunk) :
    Settles (piece ty ptr cap ++ cs) (dealloc ty ptr cap) cs := by
  unfold dealloc piece
  split
  · exact settles_release _ cs
  · exact settles_nil cs

theorem settles_doubled {v : Buffered α} (ptr cap : ℕ) (cs : List Chunk) :
    Settles (buffer ty v ++ cs)
      (acquired ty ptr cap ++
        if v.raw.onHeap then dealloc ty v.ptr v.raw.data.asHeap.length else [])
      (piece ty ptr cap ++ cs) := by
  have hnew := @settles_acquired ty ptr cap (buffer ty v ++ cs)
  have hswap := settles_perm hnew (List.perm_append_comm_assoc (piece ty ptr cap) _ cs)
  apply settles_append hswap
  unfold buffer
  split
  · exact settles_dealloc _ _ _
  · exact settles_nil _

theorem countP_acquired (ptr cap : ℕ) :
    (acquired ty ptr cap).countP isAcquire = if cap*ty.size > 0 then 1 else 0 := by
  unfold acquired
  split <;> rfl

theorem countP_dealloc (ptr cap : ℕ) : (dealloc ty ptr cap).countP isAcquire = 0 := by
  unfold dealloc
  split <;> rfl

theorem asHeap_capacity {v : RawVec α} (hheap : v.onHeap = true) :
    v.data.asHeap.length = capacity N v := (if_pos hheap).symm

def doubling (N : ℕ) (ty : Ty) (v : Buffered α) (ptr : ℕ) : List Event :=
  acquired ty ptr (capacity N v.raw*2) ++
    if v.raw.onHeap then dealloc ty v.ptr (capacity N v.raw) else []

theorem doubling_eq (v : Buffered α) (ptr : ℕ) : doubling N ty v ptr =
    acquired ty ptr (capacity N v.raw*2) ++
      if v.raw.onHeap then dealloc ty v.ptr v.raw.data.asHeap.length else [] := by
  unfold doubling
  congr 1
  split
  · next hbefore => rw [@asHeap_capacity α N _ hbefore]
  · rfl

theorem legal_doubling {v : Buffered α}
    (hlayout : layoutFits (capacity N v.raw*2*ty.size) ty.align) (ptr : ℕ) :
    AllLegal (doubling N ty v ptr) := by
  apply allLegal_append
  · unfold acquired
    split
    · next hbytes =>
      refine allLegal_singleton ?_
      rintro _ ⟨⟩
      exact ⟨hbytes,hlayout⟩
    · exact nofun
  · split
    · unfold dealloc
      split
      · exact allLegal_singleton nofun
      · exact nofun
    · exact nofun

theorem countP_doubling {v : Buffered α} (hpos : 0 < capacity N v.raw) (ptr : ℕ) :
    (doubling N ty v ptr).countP isAcquire = if ty.size = 0 then 0 else 1 := by
  have hold : ∀ b : Bool, (if b then dealloc ty v.ptr (capacity N v.raw)
      else []).countP isAcquire = 0 := by
    intro b
    cases b
    · rfl
    · exact countP_dealloc _ _
  unfold doubling
  rw [List.countP_append, countP_acquired, hold, Nat.add_zero]
  by_cases hzero : ty.size = 0
  · rw [if_pos hzero, hzero]
    rfl
  · rw [if_neg hzero, if_pos (Nat.mul_pos (by omega) (Nat.pos_of_ne_zero hzero))]

theorem asHeap_push (hwf : s.vec.raw.Wf N) (a : α)
    (hfull : s.vec.raw.len = capacity N s.vec.raw) :
    (s.vec.raw.push N a).data.asHeap.length = capacity N s.vec.raw*2 := by
  have hcap := capacity_push hwf a
  rw [if_pos hfull] at hcap
  exact (asHeap_capacity (onHeap_push a hfull)).trans hcap

theorem doubled_push (hN : 0 < N) (hwf : s.vec.raw.Wf N) {k : ℕ} (hk : Doubled N ty s k) (a : α)
    (ptr : ℕ) (hfull : s.vec.raw.len = capacity N s.vec.raw) :
    Doubled N ty (pushed s ⟨.ok ⟨s.vec.raw.push N a,ptr⟩,doubling N ty s.vec ptr,
      capacity N s.vec.raw⟩) (k+1) := by
  have hcap := capacity_push hwf a
  rw [if_pos hfull] at hcap
  have hlen : (s.vec.raw.push N a).len = s.vec.raw.len+1 := (RawVec.push_cells hwf hN a).2.1
  have hpos : 0 < capacity N s.vec.raw := by
    rw [hk.cap_eq]
    exact Nat.mul_pos hN (Nat.two_pow_pos k)
  refine ⟨?_,?_,?_,?_,fun hzero => absurd hzero (Nat.succ_ne_zero k),fun _ => ?_⟩
  · refine hcap.trans ?_
    rw [hk.cap_eq, pow_succ, Nat.mul_assoc]
  · exact ⟨fun _ => Nat.succ_pos k,fun _ => onHeap_push a hfull⟩
  · change s.moved + capacity N s.vec.raw + N = _
    have hmoved := hk.moved_eq
    rw [hk.cap_eq, pow_succ, ← Nat.mul_assoc]
    omega
  · change (s.events ++ doubling N ty s.vec ptr).countP isAcquire = _
    rw [List.countP_append, hk.acquires, countP_doubling hpos]
    split <;> rfl
  · change N * 2^k < max s.peak (s.vec.raw.push N a).len
    rw [hlen, hfull, hk.cap_eq]
    omega

theorem balanced_doubled (hN : 0 < N) (hwf : s.vec.raw.Wf N) (h : Balanced N ty s) (a : α) (ptr : ℕ)
    (hfull : s.vec.raw.len = capacity N s.vec.raw)
    (hlayout : layoutFits (capacity N s.vec.raw*2*ty.size) ty.align) :
    Balanced N ty (pushed s ⟨.ok ⟨s.vec.raw.push N a,ptr⟩,doubling N ty s.vec ptr,
      capacity N s.vec.raw⟩) := by
  have hlength := asHeap_push hwf a hfull
  obtain ⟨k,hk⟩ := h.doubled
  constructor
  · intro _
    change layoutFits ((s.vec.raw.push N a).data.asHeap.length*ty.size) ty.align
    rw [hlength]
    exact hlayout
  · intro cs
    have hnew : buffer ty ⟨s.vec.raw.push N a,ptr⟩ = piece ty ptr (capacity N s.vec.raw*2) := by
      unfold buffer
      rw [if_pos (onHeap_push a hfull), hlength]
    change Settles cs (s.events ++ doubling N ty s.vec ptr)
      (buffer ty ⟨s.vec.raw.push N a,ptr⟩ ++ cs)
    rw [hnew, doubling_eq]
    exact settles_append (h.settled cs) (settles_doubled ptr _ cs)
  · exact allLegal_append h.legal (legal_doubling hlayout ptr)
  · intro hsmall
    -- the vector held as many elements as fit inline
    have hpeak := (doubled_push hN hwf hk a ptr hfull).peak_gt (Nat.succ_pos k)
    rw [Nat.add_sub_cancel] at hpeak
    have hle := Nat.le_mul_of_pos_right N (Nat.two_pow_pos k)
    omega
  · exact le_max_right _ _
  · exact ⟨k+1,doubled_push hN hwf hk a ptr hfull⟩

theorem balanced_push (hN : 0 < N) (hwf : s.vec.raw.Wf N) (h : Balanced N ty s)
    (sys : SystemAlloc) (a : α) : Balanced N ty (pushed s (push N sys ty s.vec a)) := by
  have hpushed := @push_cases α N sys ty s.vec a h.layout hwf
  generalize push N sys ty s.vec a = e at hpushed
  cases hpushed with
  | fits hroom =>
    exact balanced_still h (sameRoom_push hwf a hroom) rfl (List.append_nil _) rfl
      (le_max_left _ _) (le_max_right _ _)
  | refused hfull hpanic hvain =>
    refine balanced_same h (sameRoom_refl _) rfl rfl hvain rfl (le_max_left _ _)
      (le_max_right _ _) (fun hsmall => ?_)
    -- a vector that is full has been as full as its inline cells are many
    obtain ⟨k,hk⟩ := h.doubled
    have hle := Nat.le_mul_of_pos_right N (Nat.two_pow_pos k)
    have hpeak : s.vec.raw.len ≤ max s.peak s.vec.raw.len := le_max_right _ _
    have hcap := hk.cap_eq
    change max s.peak s.vec.raw.len < N at hsmall
    omega
  | doubled hpanic hfull hlayout => exact balanced_doubled hN hwf h a _ hfull hlayout

theorem len_iterMut (f : ℕ → α → α) (v : RawVec α) (n : ℕ) : (iterMut f v n).len = v.len := by
  induction n with
  | zero => rfl
  | succ n ih => exact (RawVec.modify_len _ _ _).trans ih

theorem len_apply {v : RawVec α} {op : Op α} (hop : NoPush op) :
    (op.apply N ty v).1.len ≤ v.len := by
  cases op with
  | push sys a => exact hop.elim
  | pop =>
    simp only [Op.apply, RawVec.pop]
    split
    · exact le_refl _
    · exact Nat.sub_le _ _
  | get i => exact le_refl _
  | getMut i f => exact le_of_eq (RawVec.modify_len _ _ _)
  | index i =>
    simp only [Op.apply]
    split <;> exact le_refl _
  | indexMut i f =>
    simp only [Op.apply]
    split
    · exact le_of_eq (RawVec.modify_len _ _ _)
    · exact le_refl _
  | iterMut f => exact le_of_eq (len_iterMut f v v.len)

theorem step_raw (hwf : s.vec.raw.Wf N) (h : Balanced N ty s) (op : Op α) :
    (step N ty s op).vec.raw = (op.apply N ty s.vec.raw).1 := by
  cases op with
  | push sys a =>
    have hpushed := @push_cases α N sys ty s.vec a h.layout hwf
    simp only [step, Op.apply]
    generalize push N sys ty s.vec a = e at hpushed
    cases hpushed with
    | fits hroom =>
      rw [pushPanic_full hwf, if_neg hroom]
      rfl
    | refused hfull hpanic hvain =>
      rw [hpanic]
      rfl
    | doubled hpanic hfull hlayout =>
      rw [hpanic]
      rfl
  | _ => rfl

theorem balanced_step (hN : 0 < N) (hwf : s.vec.raw.Wf N) (h : Balanced N ty s) (op : Op α) :
    Balanced N ty (step N ty s op) := by
  have hother : NoPush op →
      step N ty s op = { s with vec := { s.vec with raw := (op.apply N ty s.vec.raw).1 } } →
      Balanced N ty (step N ty s op) := by
    intro hop heq
    rw [heq]
    exact balanced_still h (sameRoom_apply hop) rfl rfl rfl (le_refl _)
      ((len_apply hop).trans h.len_le)
  cases op with
  | push sys a => exact balanced_push hN hwf h sys a
  | _ => exact hother trivial rfl

theorem balanced_start (N : ℕ) (ty : Ty) : Balanced N ty (start N : State α) where
  layout := nofun
  settled := settles_nil
  legal := nofun
  unasked := fun _ => rfl
  len_le := le_refl 0
  doubled := by
    refine ⟨0,(Nat.mul_one N).symm,⟨nofun,nofun⟩,?_,?_,fun _ => nofun,nofun⟩
    · exact (Nat.zero_add N).trans (Nat.mul_one N).symm
    · exact (ite_self 0).symm

/-- A run with its buffers beside the run of the plain vector, which refines a list. -/
theorem balanced_run (hN : 0 < N) (hword : N < 2^64) (ops : List (Op α))
    (hops : Along (step N ty) (fun s op => op.InRange s.vec.raw.len) (start N) ops) :
    Balanced N ty (run (step N ty) (start N) ops) ∧
      (run (step N ty) (start N) ops).vec.raw =
        (run (InlineRefinement.step N ty) (InlineRefinement.start N) ops).vec := by
  have hfree : Along (InlineRefinement.step N ty) (fun _ _ => True)
      (InlineRefinement.start N) ops := along_of_forall _ _ _ (fun _ _ => trivial)
  have hends := run_lockstep (step N ty) (fun s op => op.InRange s.vec.raw.len)
    (InlineRefinement.step N ty) (fun _ _ => True)
    (fun s t => Balanced N ty s ∧ s.vec.raw = t.vec ∧ Holds N t.vec t.list) (· = ·) ?_
    (start N) (InlineRefinement.start N) (List.forall₂_refl ops)
    ⟨balanced_start N ty,rfl,holds_new hword⟩ hops hfree
  · exact ⟨hends.1,hends.2.1⟩
  · rintro s t op op' ⟨hs,hraw,hlist⟩ rfl hop -
    have hwf : s.vec.raw.Wf N := hraw ▸ hlist.wf
    obtain ⟨-,hnext⟩ := step_refines hN hlist op (hraw ▸ hop)
    refine ⟨balanced_step hN hwf hs op,?_,hnext⟩
    rw [step_raw hwf hs, hraw]
    rfl

end balanced

def Reached (N : ℕ) (ty : Ty) (s : State α) : Prop :=
  ∃ ops, Along (step N ty) (fun s op => op.InRange s.vec.raw.len) (start N) ops ∧
    s = run (step N ty) (start N) ops

section reached
variable {N : ℕ} {ty : Ty} {s : State α}

/-- What goes back to the system allocator when the vector is dropped. -/
theorem settles_drop (h : Balanced N ty s) (boom : α → Bool) (cs : List Chunk)
    (hquiet : (InlineRefinement.drop ty boom s.vec.raw).2 = false) :
    (drop ty boom s.vec).panic = none ∧
      Settles (buffer ty s.vec ++ cs) (drop ty boom s.vec).events cs := by
  unfold drop buffer
  dsimp only
  rw [hquiet, if_neg Bool.false_ne_true]
  cases hheap : s.vec.raw.onHeap with
  | false => exact ⟨rfl,settles_nil cs⟩
  | true =>
    rw [if_pos rfl, if_pos (h.layout hheap), if_pos rfl]
    exact ⟨rfl,settles_dealloc _ _ cs⟩

/-- Whatever else is outstanding, what a vector has taken from the system allocator and not given
back is the buffer it has, by its own address and layout. Dropping the vector gives that back, or
leaks it if a destructor panics; nothing else can panic there. -/
theorem buffers_settled (hN : 0 < N) (hword : N < 2^64) (h : Reached N ty s) :
    (∀ cs, Settles cs s.events (buffer ty s.vec ++ cs)) ∧
      (∀ e ∈ s.events, ∀ layout ∈ e.asked,
        0 < layout.1 ∧ layoutFits layout.1 layout.2 = true) ∧
      ∀ boom, (InlineRefinement.drop ty boom s.vec.raw).2 = false ∧
            (drop ty boom s.vec).panic = none ∧
            (∀ cs, Settles cs (s.events ++ (drop ty boom s.vec).events) cs) ∨
          (InlineRefinement.drop ty boom s.vec.raw).2 = true ∧
            (drop ty boom s.vec).panic = some destructorPanic ∧
            (drop ty boom s.vec).events = [] := by
  obtain ⟨ops,hops,rfl⟩ := h
  obtain ⟨hbalanced,-⟩ := balanced_run hN hword ops hops
  refine ⟨hbalanced.settled,hbalanced.legal,fun boom => ?_⟩
  generalize run (step N ty) (start N) ops = s at hbalanced ⊢
  cases hpanic : (InlineRefinement.drop ty boom s.vec.raw).2 with
  | false =>
    have hdrop := fun cs => settles_drop hbalanced boom cs hpanic
    exact Or.inl ⟨rfl,(hdrop []).1,fun cs => settles_append (hbalanced.settled cs) (hdrop cs).2⟩
  | true =>
    have hstopped : drop ty boom s.vec =
        ⟨(InlineRefinement.drop ty boom s.vec.raw).1,some destructorPanic,[]⟩ := if_pos hpanic
    rw [hstopped]
    exact Or.inr ⟨rfl,rfl,rfl⟩

/-- A vector that never holds as many elements as fit inline calls nobody, and one that never holds
more gets nothing. Otherwise the capacity is less than twice the most the vector has held, and as
many elements have been moved as it has grown. Elements with a size have one buffer for each
doubling. -/
theorem growth_logarithmic (hN : 0 < N) (hword : N < 2^64) (h : Reached N ty s) :
    (s.peak < N → s.events = []) ∧
      (s.peak ≤ N → (∀ e ∈ s.events, ∃ size align, e = .decline size align) ∧ s.moved = 0) ∧
      (N < s.peak → capacity N s.vec.raw < 2*s.peak) ∧
      s.moved + N = capacity N s.vec.raw ∧
      (ty.size ≠ 0 → N * 2^(s.events.countP isAcquire) = capacity N s.vec.raw) := by
  obtain ⟨ops,hops,rfl⟩ := h
  obtain ⟨hbalanced,-⟩ := balanced_run hN hword ops hops
  generalize run (step N ty) (start N) ops = s at hbalanced ⊢
  obtain ⟨k,hk⟩ := hbalanced.doubled
  refine ⟨hbalanced.unasked,fun hsmall => ?_,fun hlarge => ?_,
    hk.moved_eq.trans hk.cap_eq.symm,fun hsize => ?_⟩
  · have hnone : k = 0 := by
      by_contra hpos
      have hpeak := hk.peak_gt (Nat.pos_of_ne_zero hpos)
      have hle := Nat.le_mul_of_pos_right N (Nat.two_pow_pos (k-1))
      omega
    have hmoved := hk.moved_eq
    rw [hnone, pow_zero, Nat.mul_one] at hmoved
    exact ⟨hk.ungranted hnone,by omega⟩
  · rw [hk.cap_eq]
    cases k with
    | zero =>
      rw [pow_zero]
      omega
    | succ k =>
      have hpeak := hk.peak_gt (Nat.succ_pos k)
      rw [Nat.add_sub_cancel] at hpeak
      rw [pow_succ, ← Nat.mul_assoc]
      omega
  · rw [hk.acquires, if_neg hsize, hk.cap_eq]

theorem reached_calls : Reached 1 eightBytes (run (step 1 eightBytes) (start 1) calls) := by
  refine ⟨calls,⟨trivial,trivial,trivial,?_,?_,trivial,trivial,trivial,trivial,trivial⟩,rfl⟩
  · change 1 < _
    decide +kernel
  · change 1 < _
    decide +kernel

theorem buffers_settled_calls : (1 < 2^64 ∧ Reached 1 eightBytes
      (run (step 1 eightBytes) (start 1) calls)) ∧
    (∀ cs, Settles cs (run (step 1 eightBytes) (start 1) calls).events
      (buffer eightBytes (run (step 1 eightBytes) (start 1) calls).vec ++ cs)) ∧
    (run (step 1 eightBytes) (start 1) calls).events =
      [.acquire ⟨4096,16,8⟩,.acquire ⟨8192,32,8⟩,.release ⟨4096,16,8⟩] :=
  ⟨⟨by norm_num,reached_calls⟩,(buffers_settled Nat.one_pos (by norm_num) reached_calls).1,
    by decide +kernel⟩

theorem growth_logarithmic_calls :
    (run (step 1 eightBytes) (start 1) calls).peak = 3 ∧
      capacity 1 (run (step 1 eightBytes) (start 1) calls).vec.raw < 2*3 ∧
      (run (step 1 eightBytes) (start 1) calls).moved = 3 := by
  have hpeak : (run (step 1 eightBytes) (start 1) calls).peak = 3 := by decide +kernel
  have hgrowth := (growth_logarithmic Nat.one_pos (by norm_num) reached_calls).2.2.1
  rw [hpeak] at hgrowth
  exact ⟨hpeak,hgrowth (by norm_num),by decide +kernel⟩

end reached
end FastArena.InlineBuffers
