import FastArena.DropTracking

/-!
# A drain and its panics

A panic is caught entry by entry. Inside an entry the loop over a slice is not
guarded: it ends at the first element that panics, and the elements behind it are
never destroyed. So a drain reaches everything it owes exactly when, in each entry,
only the last element may panic.
-/

set_option autoImplicit false

namespace FastArena.FullDrain
open FastArena.ArenaBlock FastArena.ByteSpan FastArena.InlineStorage
open FastArena.DropTracking

def key (c : DropCall) : ℕ × ℕ := (c.entry,c.elem)

theorem mem_runElems_iff (boom : ℕ → Bool) (entry : ℕ) (slot : DropSlot) (n i : ℕ) (c : DropCall) :
    c ∈ (runElems boom entry slot n i).1 ↔ c.entry = entry ∧ c.slot = slot ∧
      (i ≤ c.elem ∧ c.elem < i+n) ∧ ∀ e, i ≤ e → e < c.elem → boom e = false := by
  induction n generalizing i with
  | zero =>
    simp only [runElems, List.not_mem_nil, false_iff]
    rintro ⟨-,-,⟨hlo,hhi⟩,-⟩
    omega
  | succ n ih =>
    have hself : c = ⟨entry,i,slot⟩ ↔ c.entry = entry ∧ c.slot = slot ∧ c.elem = i := by
      cases c
      simp only [DropCall.mk.injEq]
      tauto
    by_cases hboom : boom i = true
    · simp only [runElems, hboom, if_true, List.mem_singleton, hself]
      constructor
      · rintro ⟨he,hs,hi⟩
        exact ⟨he,hs,by omega,by omega⟩
      · rintro ⟨he,hs,⟨hlo,hhi⟩,hcalm⟩
        refine ⟨he,hs,?_⟩
        by_contra hne
        simp [hcalm i (le_refl i) (by omega)] at hboom
    · rw [Bool.not_eq_true] at hboom
      simp only [runElems, hboom, Bool.false_eq_true, if_false, List.mem_cons, hself, ih]
      constructor
      · rintro (⟨he,hs,hi⟩ | ⟨he,hs,⟨hlo,hhi⟩,hcalm⟩)
        · exact ⟨he,hs,by omega,by omega⟩
        · refine ⟨he,hs,by omega,fun e hle hlt => ?_⟩
          by_cases hei : e = i
          · rw [hei, hboom]
          · exact hcalm e (by omega) hlt
      · rintro ⟨he,hs,⟨hlo,hhi⟩,hcalm⟩
        by_cases hci : c.elem = i
        · exact Or.inl ⟨he,hs,hci⟩
        · exact Or.inr ⟨he,hs,by omega,fun e hle hlt => hcalm e (by omega) hlt⟩

/-- The calls of a drain: what is registered above the target, up to the first panic of its
entry. -/
theorem mem_callsUntil_iff (boom : ℕ → ℕ → Bool) (target : ℕ) (es : List DropSlot)
    (c : DropCall) : c ∈ callsUntil boom target es ↔
      (target ≤ c.entry ∧ es[c.entry]? = some c.slot ∧ c.elem < c.slot.count) ∧
        ∀ e, e < c.elem → boom c.entry e = false := by
  constructor
  · intro h
    refine ⟨mem_callsUntil h,?_⟩
    obtain ⟨⟨slot,entry⟩,-,hc⟩ := List.mem_flatMap.mp h
    obtain ⟨rfl,-,-,hcalm⟩ := (mem_runElems_iff _ _ _ _ _ _).mp hc
    exact fun e he => hcalm e (Nat.zero_le e) he
  · rintro ⟨⟨htarget,hget,hcount⟩,hcalm⟩
    obtain ⟨hlt,hslot⟩ := List.getElem?_eq_some_iff.mp hget
    apply List.mem_flatMap.mpr
    refine ⟨(c.slot,c.entry),?_,?_⟩
    · rw [List.mem_reverse, List.mem_iff_getElem?]
      refine ⟨c.entry-target,?_⟩
      rw [List.getElem?_drop, show target+(c.entry-target) = c.entry by omega]
      simp [hget]
    · exact (mem_runElems_iff _ _ _ _ _ _).mpr
        ⟨rfl,rfl,⟨Nat.zero_le _,by simpa using hcount⟩,fun e _ he => hcalm e he⟩

theorem runElems_filter (boom : ℕ → Bool) (entry : ℕ) (slot : DropSlot) (n i : ℕ) :
    (runElems boom entry slot n i).1 = (runElems (fun _ => false) entry slot n i).1.filter
      (fun c => ∀ e < c.elem, i ≤ e → boom e = false) := by
  induction n generalizing i with
  | zero => rfl
  | succ n ih =>
    have hfirst : (decide (∀ e < i, i ≤ e → boom e = false)) = true :=
      decide_eq_true (fun e hlt hle => absurd hle (Nat.not_le.mpr hlt))
    simp only [runElems, Bool.false_eq_true, if_false]
    rw [List.filter_cons]
    dsimp only
    rw [if_pos hfirst]
    by_cases hboom : boom i = true
    · rw [if_pos hboom]
      symm
      refine congrArg (List.cons _) (List.filter_eq_nil_iff.mpr ?_)
      intro c hc hcalm
      have hlt := (mem_runElems hc).2.2.1
      have hstop := of_decide_eq_true hcalm i hlt (le_refl i)
      exact Bool.false_ne_true (hstop.symm.trans hboom)
    · rw [if_neg hboom]
      dsimp only
      rw [ih (i+1)]
      refine congrArg (List.cons _) (List.filter_congr ?_)
      intro c _
      rw [decide_eq_decide]
      constructor
      · intro hcalm e he hle
        rcases Nat.eq_or_lt_of_le hle with rfl | hlt
        · exact Bool.eq_false_iff.mpr hboom
        · exact hcalm e he hlt
      · exact fun hcalm e he hle => hcalm e he (by omega)

theorem callsUntil_filter (boom : ℕ → ℕ → Bool) (target : ℕ) (es : List DropSlot) :
    callsUntil boom target es = (callsUntil quiet target es).filter
      (fun c => ∀ e < c.elem, boom c.entry e = false) := by
  unfold callsUntil runSlot
  rw [List.filter_flatMap]
  apply List.flatMap_congr
  intro e _
  rw [runElems_filter]
  apply List.filter_congr
  intro c hc
  have hentry : c.entry = e.2 := (mem_runElems hc).1
  rw [hentry, decide_eq_decide]
  exact ⟨fun h d hd => h d hd (Nat.zero_le d),fun h d hd _ => h d hd⟩

theorem runElems_nodup (boom : ℕ → Bool) (entry : ℕ) (slot : DropSlot) (n i : ℕ) :
    ((runElems boom entry slot n i).1.map key).Nodup := by
  induction n generalizing i with
  | zero => exact List.nodup_nil
  | succ n ih =>
    by_cases hboom : boom i = true
    · simp [runElems, hboom]
    · simp only [runElems, hboom, Bool.false_eq_true, if_false, List.map_cons, List.nodup_cons]
      refine ⟨fun hmem => ?_,ih (i+1)⟩
      obtain ⟨c,hc,hkey⟩ := List.mem_map.mp hmem
      have hlo := (mem_runElems hc).2.2.1
      have helem : c.elem = i := congrArg Prod.snd hkey
      omega

theorem callsUntil_nodup (boom : ℕ → ℕ → Bool) (target : ℕ) (es : List DropSlot) :
    ((callsUntil boom target es).map key).Nodup := by
  induction es using List.reverseRecOn with
  | nil => simp [callsUntil]
  | append_singleton es e ih =>
    by_cases h : target ≤ es.length
    · rw [callsUntil_concat boom es e h, List.map_append, List.nodup_append]
      refine ⟨runElems_nodup _ _ _ _ _,ih,?_⟩
      rintro _ hnew _ hold rfl
      obtain ⟨c,hc,hkey⟩ := List.mem_map.mp hnew
      obtain ⟨d,hd,hsame⟩ := List.mem_map.mp hold
      have hentry : d.entry = c.entry := congrArg Prod.fst (hsame.trans hkey.symm)
      obtain ⟨hlt,-⟩ := List.getElem?_eq_some_iff.mp (mem_callsUntil hd).2.1
      have hlast := (mem_runElems hc).1
      omega
    · rw [callsUntil_none boom (by simp; omega)]
      exact List.nodup_nil

def Owed (r : DropRegistry) (target : ℕ) (c : DropCall) : Prop :=
  target ≤ c.entry ∧ r.entries[c.entry]? = some c.slot ∧ c.elem < c.slot.count

/-- What `run_drops_until` sets out to do: everything owed is destroyed exactly once, nothing
else is, the entries below the target stay, and a panic is raised exactly if one occurred. -/
def DrainsFully (r : DropRegistry) (target : ℕ) (boom : ℕ → ℕ → Bool) : Prop :=
  let out := r.runDropsUntil boom target
  ((out.1.map key).Nodup ∧ ∀ c, c ∈ out.1 ↔ Owed r target c) ∧
    (out.2.1.entries = r.entries.take target ∧ out.2.1.len = min r.len target) ∧
    (out.2.2 = true ↔ ∃ c, Owed r target c ∧ boom c.entry c.elem = true)

def PanicsLast (r : DropRegistry) (target : ℕ) (boom : ℕ → ℕ → Bool) : Prop :=
  ∀ c, Owed r target c → boom c.entry c.elem = true → c.elem+1 = c.slot.count

theorem panicked_iff_owed (r : DropRegistry) (target : ℕ) (boom : ℕ → ℕ → Bool) :
    (r.runDropsUntil boom target).2.2 = true ↔
      ∃ c, Owed r target c ∧ boom c.entry c.elem = true := by
  rw [r.panicked_runDropsUntil]
  constructor
  · rintro ⟨k,slot,e,hk,hget,he,hboom⟩
    exact ⟨⟨k,e,slot⟩,⟨hk,hget,he⟩,hboom⟩
  · rintro ⟨⟨k,e,slot⟩,⟨hk,hget,he⟩,hboom⟩
    exact ⟨k,slot,e,hk,hget,he,hboom⟩

/-- A drain destroys everything it owes exactly when no element but an entry's last panics. -/
theorem drainsFully_iff (r : DropRegistry) (target : ℕ) (boom : ℕ → ℕ → Bool) :
    DrainsFully r target boom ↔ PanicsLast r target boom := by
  have hmem : ∀ c, c ∈ (r.runDropsUntil boom target).1 ↔
      Owed r target c ∧ ∀ e, e < c.elem → boom c.entry e = false := by
    intro c
    rw [r.calls_runDropsUntil]
    exact mem_callsUntil_iff boom target r.entries c
  constructor
  · rintro ⟨⟨-,hall⟩,-⟩ ⟨entry,elem,slot⟩ ⟨htarget,hget,hcount⟩ hboom
    by_contra hlast
    -- the element behind the one that panics is owed and never reached
    have hnext : Owed r target ⟨entry,elem+1,slot⟩ := by
      refine ⟨htarget,hget,?_⟩
      dsimp only at hlast hcount ⊢
      omega
    have hcalm := ((hmem _).mp ((hall _).mpr hnext)).2 elem (Nat.lt_succ_self elem)
    exact Bool.false_ne_true (hcalm.symm.trans hboom)
  · intro hlast
    refine ⟨⟨?_,fun c => ?_⟩,⟨r.entries_runDropsUntil boom target,?_⟩,
      panicked_iff_owed r target boom⟩
    · rw [r.calls_runDropsUntil]
      exact callsUntil_nodup boom target r.entries
    · rw [hmem]
      refine ⟨And.left,fun howed => ⟨howed,fun e he => ?_⟩⟩
      by_contra hboom
      have hend := hlast ⟨c.entry,e,c.slot⟩ ⟨howed.1,howed.2.1,lt_trans he howed.2.2⟩
        (Bool.eq_true_of_not_eq_false hboom)
      have hcount := howed.2.2
      dsimp only at hend
      omega
    · rw [DropRegistry.len_entries, r.entries_runDropsUntil, List.length_take,
        DropRegistry.len_entries, min_comm]

def guarded : Ty := ⟨2,1,true,token.align_pow,one_dvd 2,by norm_num⟩

def pair : DropRegistry := (DropRegistry.new true).registerSlice guarded 64 2

/-- The first of two elements panics, and the second is never destroyed. -/
theorem second_skipped : ¬ DrainsFully pair 0 (fun _ e => e == 0) := by
  intro h
  have hcalls := (h.1.2 ⟨0,1,.range 64 2 guarded⟩).mpr
    ⟨le_refl 0,rfl,by decide⟩
  rw [DropRegistry.calls_runDropsUntil, mem_callsUntil_iff] at hcalls
  exact absurd (hcalls.2 0 Nat.zero_lt_one) (by decide)

end FastArena.FullDrain
