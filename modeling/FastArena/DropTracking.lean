import FastArena.ArenaBlock
import FastArena.InlineStorage

/-!
# The drop registry

Destructors owed by the arena, in the order of registration. A rewind pops and
runs the entries above a saved length, a reset all of them. A destructor may
panic: the oracle `boom` says which, by entry and element. The first panic is
raised again after the remaining entries have been drained.
-/

set_option autoImplicit false

namespace FastArena.DropTracking
open FastArena.ArenaBlock FastArena.ByteSpan FastArena.InlineStorage

abbrev dropInlineCap : ℕ := 32

inductive DropSlot where
  | single (ptr : ℕ) (ty : Ty)
  | range (ptr count : ℕ) (ty : Ty)

def DropSlot.ptr : DropSlot → ℕ
  | .single ptr _ => ptr
  | .range ptr _ _ => ptr

def DropSlot.ty : DropSlot → Ty
  | .single _ ty => ty
  | .range _ _ ty => ty

def DropSlot.count : DropSlot → ℕ
  | .single _ _ => 1
  | .range _ count _ => count

def DropSlot.extent (s : DropSlot) : Span := ⟨s.ptr,s.count * s.ty.size⟩

instance : Inhabited Ty :=
  ⟨⟨0,1,false,⟨0,by norm_num,by norm_num⟩,one_dvd 0,by norm_num⟩⟩

def token : Ty := ⟨0,1,true,⟨0,by norm_num,by norm_num⟩,one_dvd 0,by norm_num⟩

instance : Inhabited DropSlot := ⟨.single 0 default⟩

structure DropCall where
  entry : ℕ
  elem : ℕ
  slot : DropSlot

def DropCall.addr (c : DropCall) : ℕ := c.slot.ptr + c.elem * c.slot.ty.size

abbrev Slots := InlineVec DropSlot dropInlineCap

def runElems (boom : ℕ → Bool) (entry : ℕ) (slot : DropSlot) : ℕ → ℕ → List DropCall × Bool
  | 0, _ => ([],false)
  | n+1, i =>
    if boom i then ([⟨entry,i,slot⟩],true)
    else
      let rest := runElems boom entry slot n (i+1)
      (⟨entry,i,slot⟩ :: rest.1,rest.2)

-- A caught panic's payload is dropped outside `catch_unwind`; that drop is taken not to panic.
def runSlot (boom : ℕ → ℕ → Bool) (entry : ℕ) (slot : DropSlot) : List DropCall × Bool :=
  runElems (boom entry) entry slot slot.count 0

-- The loop of `drain_remaining`; the length of the vector is fuel enough.
def drainLoop (boom : ℕ → ℕ → Bool) (target : ℕ) : ℕ → Slots → List DropCall × Slots
  | 0, slots => ([],slots)
  | fuel+1, slots =>
    if slots.len > target then
      let slot := slots.pop.1.getD default
      let rest := drainLoop boom target fuel slots.pop.2
      ((runSlot boom (slots.len-1) slot).1 ++ rest.1,rest.2)
    else ([],slots)

def drainRemaining (boom : ℕ → ℕ → Bool) (target : ℕ) (slots : Slots) : List DropCall × Slots :=
  drainLoop boom target slots.len slots

def runLoop (boom : ℕ → ℕ → Bool) (target : ℕ) : ℕ → Slots → List DropCall × Slots × Bool
  | 0, slots => ([],slots,false)
  | fuel+1, slots =>
    if slots.len > target then
      let slot := slots.pop.1.getD default
      let result := runSlot boom (slots.len-1) slot
      if result.2 then
        let rest := drainRemaining boom target slots.pop.2
        (result.1 ++ rest.1,rest.2,true)
      else
        let rest := runLoop boom target fuel slots.pop.2
        (result.1 ++ rest.1,rest.2)
    else ([],slots,false)

inductive DropRegistry where
  | tracking (slots : Slots)
  | off

namespace DropRegistry

def new (feature : Bool) : DropRegistry := if feature then .tracking InlineVec.new else .off

def isTracking : DropRegistry → Bool
  | .tracking _ => true
  | .off => false

def register (ty : Ty) (ptr : ℕ) : DropRegistry → DropRegistry
  | .tracking slots => if ty.needsDrop then .tracking (slots.push (.single ptr ty))
      else .tracking slots
  | .off => .off

def registerSlice (ty : Ty) (ptr count : ℕ) : DropRegistry → DropRegistry
  | .tracking slots => if count = 0 then .tracking slots
      else if ty.needsDrop then .tracking (slots.push (.range ptr count ty))
      else .tracking slots
  | .off => .off

def runDropsUntil (boom : ℕ → ℕ → Bool) (target : ℕ) :
    DropRegistry → List DropCall × DropRegistry × Bool
  | .tracking slots =>
    let r := runLoop boom target slots.len slots
    (r.1,.tracking r.2.1,r.2.2)
  | .off => ([],.off,false)

def runAllDrops (boom : ℕ → ℕ → Bool) (r : DropRegistry) : List DropCall × DropRegistry × Bool :=
  r.runDropsUntil boom 0

def len : DropRegistry → ℕ
  | .tracking slots => slots.len
  | .off => 0

def entries : DropRegistry → List DropSlot
  | .tracking slots => slots.toList
  | .off => []

end DropRegistry

/-- What running the entries from `target` on amounts to: newest entry first. -/
def callsUntil (boom : ℕ → ℕ → Bool) (target : ℕ) (es : List DropSlot) : List DropCall :=
  (es.zipIdx.drop target).reverse.flatMap (fun e => (runSlot boom e.2 e.1).1)

theorem callsUntil_none (boom : ℕ → ℕ → Bool) {target : ℕ} {es : List DropSlot}
    (h : es.length ≤ target) : callsUntil boom target es = [] := by
  rw [callsUntil, List.drop_of_length_le (by simpa using h)]
  rfl

theorem callsUntil_concat (boom : ℕ → ℕ → Bool) {target : ℕ} (es : List DropSlot) (e : DropSlot)
    (h : target ≤ es.length) :
    callsUntil boom target (es++[e]) = (runSlot boom es.length e).1 ++ callsUntil boom target es := by
  rw [callsUntil, List.zipIdx_append, List.drop_append_of_le_length (by simpa using h),
    List.reverse_append]
  simp [callsUntil]

theorem drainLoop_spec (boom : ℕ → ℕ → Bool) (target fuel : ℕ) (slots : Slots)
    (h : slots.len ≤ fuel) :
    (drainLoop boom target fuel slots).1 = callsUntil boom target slots.toList ∧
      (drainLoop boom target fuel slots).2.toList = slots.toList.take target := by
  induction fuel generalizing slots with
  | zero =>
    have hlen : slots.toList.length ≤ target := by rw [InlineVec.length_toList]; omega
    exact ⟨(callsUntil_none boom hlen).symm,(List.take_of_length_le hlen).symm⟩
  | succ fuel ih =>
    by_cases hmore : slots.len > target
    · have hsplit := slots.toList_pop (by omega)
      have hlast : slots.pop.2.toList.length = slots.len-1 := by simp
      obtain ⟨hcalls,hkept⟩ := ih slots.pop.2 (by rw [InlineVec.len_pop]; omega)
      simp only [drainLoop, hmore, if_true, hcalls, hkept]
      rw [hsplit, callsUntil_concat boom _ _ (by omega), hlast,
        List.take_append_of_le_length (by omega), slots.pop_get (by omega), Option.getD_some]
      exact ⟨rfl,rfl⟩
    · have hlen : slots.toList.length ≤ target := by rw [InlineVec.length_toList]; omega
      simp only [drainLoop, hmore, if_false]
      exact ⟨(callsUntil_none boom hlen).symm,(List.take_of_length_le hlen).symm⟩

/-- Panics decide whether one is raised, never which destructors run or which entries stay. -/
theorem runLoop_spec (boom : ℕ → ℕ → Bool) (target fuel : ℕ) (slots : Slots)
    (h : slots.len ≤ fuel) :
    (runLoop boom target fuel slots).1 = callsUntil boom target slots.toList ∧
      (runLoop boom target fuel slots).2.1.toList = slots.toList.take target := by
  induction fuel generalizing slots with
  | zero => exact drainLoop_spec boom target 0 slots h
  | succ fuel ih =>
    have hdrain := drainLoop_spec boom target (fuel+1) slots h
    by_cases hmore : slots.len > target
    · have hpop := drainLoop_spec boom target fuel slots.pop.2 (by rw [InlineVec.len_pop]; omega)
      have hrem := drainLoop_spec boom target slots.pop.2.len slots.pop.2 (le_refl _)
      have hrun := ih slots.pop.2 (by rw [InlineVec.len_pop]; omega)
      simp only [drainLoop, hmore, if_true, hpop] at hdrain
      simp only [runLoop, hmore, if_true, drainRemaining]
      split
      · rw [hrem.1, hrem.2]
        exact hdrain
      · rw [hrun.1, hrun.2]
        exact hdrain
    · simp only [drainLoop, hmore, if_false] at hdrain
      simp only [runLoop, hmore, if_false]
      exact hdrain

theorem mem_runElems {boom : ℕ → Bool} {entry : ℕ} {slot : DropSlot} {n i : ℕ} {c : DropCall}
    (h : c ∈ (runElems boom entry slot n i).1) :
    c.entry = entry ∧ c.slot = slot ∧ i ≤ c.elem ∧ c.elem < i+n := by
  induction n generalizing i with
  | zero => simp [runElems] at h
  | succ n ih =>
    simp only [runElems] at h
    split at h
    · obtain rfl := List.mem_singleton.mp h
      exact ⟨rfl,rfl,le_refl i,by dsimp only; omega⟩
    · rcases List.mem_cons.mp h with rfl | hrest
      · exact ⟨rfl,rfl,le_refl i,by dsimp only; omega⟩
      · obtain ⟨he,hs,hlo,hhi⟩ := ih hrest
        exact ⟨he,hs,by omega,by omega⟩

theorem mem_callsUntil {boom : ℕ → ℕ → Bool} {target : ℕ} {es : List DropSlot} {c : DropCall}
    (h : c ∈ callsUntil boom target es) :
    target ≤ c.entry ∧ es[c.entry]? = some c.slot ∧ c.elem < c.slot.count := by
  obtain ⟨⟨slot,entry⟩,hmem,hc⟩ := List.mem_flatMap.mp h
  obtain ⟨hentry,hslot,-,helem⟩ := mem_runElems hc
  obtain ⟨k,hk,hget⟩ := List.getElem_of_mem (List.mem_reverse.mp hmem)
  rw [List.getElem_drop, List.getElem_zipIdx] at hget
  obtain ⟨hs,he⟩ := Prod.mk.inj hget
  simp only [List.length_drop, List.length_zipIdx] at hk
  refine ⟨by omega,?_,by rw [hslot]; omega⟩
  rw [hentry, hslot, ← he, ← hs, Nat.zero_add]
  exact List.getElem?_eq_getElem _

theorem runElems_quiet (entry : ℕ) (slot : DropSlot) (n i : ℕ) :
    runElems (fun _ => false) entry slot n i =
      ((List.range' i n).map (fun k => ⟨entry,k,slot⟩),false) := by
  induction n generalizing i with
  | zero => rfl
  | succ n ih => simp [runElems, ih, List.range'_succ]

theorem runElems_panics {boom : ℕ → Bool} {entry : ℕ} {slot : DropSlot} {n i : ℕ} :
    (runElems boom entry slot n i).2 = true ↔ ∃ e, i ≤ e ∧ e < i+n ∧ boom e = true := by
  induction n generalizing i with
  | zero =>
    refine iff_of_false nofun ?_
    rintro ⟨e,hlo,hhi,-⟩
    omega
  | succ n ih =>
    unfold runElems
    by_cases hboom : boom i = true
    · rw [if_pos hboom]
      exact iff_of_true rfl ⟨i,le_refl i,by omega,hboom⟩
    · rw [if_neg hboom, ih]
      constructor
      · rintro ⟨e,hlo,hhi,he⟩
        exact ⟨e,by omega,by omega,he⟩
      · rintro ⟨e,hlo,hhi,he⟩
        have hne : e ≠ i := fun heq => hboom (heq ▸ he)
        exact ⟨e,by omega,by omega,he⟩

theorem runSlot_panics {boom : ℕ → ℕ → Bool} {entry : ℕ} {slot : DropSlot} :
    (runSlot boom entry slot).2 = true ↔ ∃ e, e < slot.count ∧ boom entry e = true := by
  rw [runSlot, runElems_panics]
  simp

theorem runLoop_panics (boom : ℕ → ℕ → Bool) (target fuel : ℕ) (slots : Slots)
    (h : slots.len ≤ fuel) : (runLoop boom target fuel slots).2.2 = true ↔
      ∃ k slot e, target ≤ k ∧ slots.toList[k]? = some slot ∧ e < slot.count ∧
        boom k e = true := by
  induction fuel generalizing slots with
  | zero =>
    refine iff_of_false nofun ?_
    rintro ⟨k,slot,e,-,hk,-⟩
    obtain ⟨hlt,-⟩ := List.getElem?_eq_some_iff.mp hk
    rw [InlineVec.length_toList] at hlt
    omega
  | succ fuel ih =>
    by_cases hmore : slots.len > target
    · have hlast : slots.pop.2.toList.length = slots.len-1 := by simp
      have hih := ih slots.pop.2 (by rw [InlineVec.len_pop]; omega)
      have hsplit : ∀ k, slots.toList[k]? = if k < slots.len-1 then slots.pop.2.toList[k]?
          else if k = slots.len-1 then some (slots.pop.1.getD default) else none := by
        intro k
        rw [slots.toList_pop (by omega), slots.pop_get (by omega), Option.getD_some,
          List.getElem?_append, hlast]
        split
        · rfl
        · split
          · simp [*]
          · rw [List.getElem?_eq_none_iff, List.length_singleton]
            omega
      unfold runLoop
      rw [if_pos hmore]
      dsimp only
      by_cases hboom : (runSlot boom (slots.len-1) (slots.pop.1.getD default)).2 = true
      · rw [if_pos hboom]
        obtain ⟨e,he,hpanic⟩ := runSlot_panics.mp hboom
        refine iff_of_true rfl ⟨slots.len-1,_,e,by omega,?_,he,hpanic⟩
        rw [hsplit, if_neg (lt_irrefl _), if_pos rfl]
      · rw [if_neg hboom, hih]
        constructor
        · rintro ⟨k,slot,e,hk,hget,he,hpanic⟩
          refine ⟨k,slot,e,hk,?_,he,hpanic⟩
          obtain ⟨hlt,-⟩ := List.getElem?_eq_some_iff.mp hget
          rw [hsplit, if_pos (hlast ▸ hlt)]
          exact hget
        · rintro ⟨k,slot,e,hk,hget,he,hpanic⟩
          rw [hsplit] at hget
          split at hget
          · exact ⟨k,slot,e,hk,hget,he,hpanic⟩
          · -- the entry popped first did not panic
            split at hget
            · subst_vars
              cases hget
              exact absurd (runSlot_panics.mpr ⟨e,he,hpanic⟩) hboom
            · cases hget
    · unfold runLoop
      rw [if_neg hmore]
      refine iff_of_false nofun ?_
      rintro ⟨k,slot,e,hk,hget,-⟩
      obtain ⟨hlt,-⟩ := List.getElem?_eq_some_iff.mp hget
      rw [InlineVec.length_toList] at hlt
      omega

def quiet : ℕ → ℕ → Bool := fun _ _ => false

theorem runSlot_quiet (entry : ℕ) (slot : DropSlot) :
    runSlot quiet entry slot = ((List.range slot.count).map (fun k => ⟨entry,k,slot⟩),false) := by
  rw [List.range_eq_range']
  exact runElems_quiet entry slot slot.count 0

theorem runLoop_quiet (target fuel : ℕ) (slots : Slots) :
    (runLoop quiet target fuel slots).2.2 = false := by
  induction fuel generalizing slots with
  | zero => rfl
  | succ fuel ih =>
    by_cases hmore : slots.len > target
    · simp [runLoop, hmore, runSlot_quiet, ih]
    · simp [runLoop, hmore]

namespace DropRegistry

variable (r : DropRegistry)

@[simp] theorem entries_new (feature : Bool) : (new feature).entries = [] := by
  cases feature <;> rfl

theorem len_entries : r.len = r.entries.length := by
  cases r with
  | tracking slots => exact slots.length_toList.symm
  | off => rfl

@[simp] theorem entries_register (ty : Ty) (ptr : ℕ) :
    (r.register ty ptr).entries =
      if r.isTracking ∧ ty.needsDrop then r.entries ++ [.single ptr ty] else r.entries := by
  cases r with
  | tracking slots => cases hty : ty.needsDrop <;> simp [register, entries, isTracking, hty]
  | off => simp [register, entries, isTracking]

@[simp] theorem entries_registerSlice (ty : Ty) (ptr count : ℕ) :
    (r.registerSlice ty ptr count).entries =
      if r.isTracking ∧ ty.needsDrop ∧ count ≠ 0 then r.entries ++ [.range ptr count ty]
      else r.entries := by
  cases r with
  | tracking slots =>
    cases hty : ty.needsDrop <;> by_cases hc : count = 0 <;>
      simp [registerSlice, entries, isTracking, hty, hc]
  | off => simp [registerSlice, entries, isTracking]

@[simp] theorem isTracking_register (ty : Ty) (ptr : ℕ) :
    (r.register ty ptr).isTracking = r.isTracking := by
  cases r with
  | tracking slots => simp only [register]; split <;> rfl
  | off => rfl

@[simp] theorem isTracking_registerSlice (ty : Ty) (ptr count : ℕ) :
    (r.registerSlice ty ptr count).isTracking = r.isTracking := by
  cases r with
  | tracking slots => simp only [registerSlice]; split <;> [rfl; split <;> rfl]
  | off => rfl

@[simp] theorem calls_runDropsUntil (boom : ℕ → ℕ → Bool) (target : ℕ) :
    (r.runDropsUntil boom target).1 = callsUntil boom target r.entries := by
  cases r with
  | tracking slots => exact (runLoop_spec boom target slots.len slots (le_refl _)).1
  | off => exact (callsUntil_none boom (Nat.zero_le _)).symm

@[simp] theorem entries_runDropsUntil (boom : ℕ → ℕ → Bool) (target : ℕ) :
    (r.runDropsUntil boom target).2.1.entries = r.entries.take target := by
  cases r with
  | tracking slots => exact (runLoop_spec boom target slots.len slots (le_refl _)).2
  | off => simp [runDropsUntil, entries]

@[simp] theorem isTracking_runDropsUntil (boom : ℕ → ℕ → Bool) (target : ℕ) :
    (r.runDropsUntil boom target).2.1.isTracking = r.isTracking := by
  cases r <;> rfl

theorem panicked_runDropsUntil (boom : ℕ → ℕ → Bool) (target : ℕ) :
    (r.runDropsUntil boom target).2.2 = true ↔
      ∃ k slot e, target ≤ k ∧ r.entries[k]? = some slot ∧ e < slot.count ∧ boom k e = true := by
  cases r with
  | tracking slots => exact runLoop_panics boom target slots.len slots (le_refl _)
  | off => simp [runDropsUntil, entries]

@[simp] theorem panicked_runDropsUntil_quiet (target : ℕ) :
    (r.runDropsUntil quiet target).2.2 = false := by
  cases r with
  | tracking slots => exact runLoop_quiet target slots.len slots
  | off => rfl

end DropRegistry
end FastArena.DropTracking
