import Mathlib.Tactic
import Mathlib.Data.List.Pairwise

/-!
# Ledgers of a bump cursor

A cursor moves through an ordered space. Each grant takes an interval at or
above the cursor and leaves the cursor at its end; a mark remembers the cursor
and a cut returns to a mark and gives up what was granted after it. The ledger
records every grant with the time it was made. Nothing here knows what the
space is: any preorder will do.
-/

set_option autoImplicit false

namespace FastArena.BumpLedger

variable {α : Type*}

structure Piece (α : Type*) where
  stamp : ℕ
  lo : α
  hi : α

structure Mark (α : Type*) where
  stamp : ℕ
  pos : α

/-- `live` holds the grants not given up since, `issued` all of them, newest first. -/
structure Ledger (α : Type*) where
  pos : α
  clock : ℕ
  live : List (Piece α)
  issued : List (Piece α)
  marks : List (Mark α)

def advance (L : Ledger α) (q : α) : Ledger α := { L with pos := q, clock := L.clock+1 }

def grant (L : Ledger α) (lo hi : α) : Ledger α :=
  { L with pos := hi, clock := L.clock+1, live := ⟨L.clock,lo,hi⟩ :: L.live,
           issued := ⟨L.clock,lo,hi⟩ :: L.issued }

def mark (L : Ledger α) : Ledger α :=
  { L with clock := L.clock+1, marks := ⟨L.clock,L.pos⟩ :: L.marks }

def cut (L : Ledger α) (m : Mark α) : Ledger α :=
  { L with pos := m.pos, clock := L.clock+1, live := L.live.filter (·.stamp < m.stamp) }

def clear (L : Ledger α) (q : α) : Ledger α :=
  { L with pos := q, clock := L.clock+1, live := [] }

variable [Preorder α]

def Guarded (pos : α) (issued ps : List (Piece α)) : Prop :=
  ∀ p ∈ ps, p.hi ≤ pos ∧ ∀ q ∈ issued, p.stamp < q.stamp → p.hi ≤ q.lo

theorem guarded_advance {pos q : α} {issued ps : List (Piece α)}
    (h : Guarded pos issued ps) (hq : pos ≤ q) : Guarded q issued ps :=
  fun p hp => ⟨(h p hp).1.trans hq,(h p hp).2⟩

theorem guarded_cut {pos q : α} {issued ps kept : List (Piece α)}
    (h : Guarded pos issued ps) (hkept : ∀ p ∈ kept, p ∈ ps ∧ p.hi ≤ q) :
    Guarded q issued kept :=
  fun p hp => ⟨(hkept p hp).2,(h p (hkept p hp).1).2⟩

theorem guarded_issue {pos : α} {issued ps : List (Piece α)} (new : Piece α)
    (h : Guarded pos issued ps) (hlo : pos ≤ new.lo) (hhi : new.lo ≤ new.hi) :
    Guarded new.hi (new::issued) ps := by
  intro p hp
  refine ⟨(h p hp).1.trans (hlo.trans hhi),?_⟩
  intro q hq hstamp
  rcases List.mem_cons.mp hq with rfl | hold
  · exact (h p hp).1.trans hlo
  · exact (h p hp).2 q hold hstamp

theorem guarded_grant {pos : α} {issued ps : List (Piece α)} (new : Piece α)
    (h : Guarded pos issued ps) (hlo : pos ≤ new.lo) (hhi : new.lo ≤ new.hi)
    (hnew : ∀ q ∈ issued, q.stamp < new.stamp) : Guarded new.hi (new::issued) (new::ps) := by
  intro p hp
  rcases List.mem_cons.mp hp with rfl | hold
  · refine ⟨le_refl _,?_⟩
    intro q hq hstamp
    rcases List.mem_cons.mp hq with rfl | hq
    · omega
    · have := hnew q hq
      omega
  · exact guarded_issue new h hlo hhi p hold

structure Sound (L : Ledger α) : Prop where
  live_issued : L.live.Sublist L.issued
  newest_first : L.issued.Pairwise (fun a b => b.stamp < a.stamp)
  issued_past : ∀ p ∈ L.issued, p.stamp < L.clock
  marks_past : ∀ m ∈ L.marks, m.stamp < L.clock
  guarded : Guarded L.pos L.issued L.live
  recalled : ∀ m ∈ L.marks, ∀ p ∈ L.live, p.stamp < m.stamp → p.hi ≤ m.pos

theorem sound_advance {L : Ledger α} (h : Sound L) {q : α} (hq : L.pos ≤ q) :
    Sound (advance L q) where
  live_issued := h.live_issued
  newest_first := h.newest_first
  issued_past := fun p hp => Nat.lt_succ_of_lt (h.issued_past p hp)
  marks_past := fun m hm => Nat.lt_succ_of_lt (h.marks_past m hm)
  guarded := guarded_advance h.guarded hq
  recalled := h.recalled

theorem sound_grant {L : Ledger α} (h : Sound L) {lo hi : α} (hlo : L.pos ≤ lo) (hhi : lo ≤ hi) :
    Sound (grant L lo hi) where
  live_issued := h.live_issued.cons_cons _
  newest_first := List.pairwise_cons.mpr ⟨h.issued_past,h.newest_first⟩
  issued_past := by
    intro p hp
    rcases List.mem_cons.mp hp with rfl | hold
    · exact Nat.lt_succ_self _
    · exact Nat.lt_succ_of_lt (h.issued_past p hold)
  marks_past := fun m hm => Nat.lt_succ_of_lt (h.marks_past m hm)
  guarded := guarded_grant ⟨L.clock,lo,hi⟩ h.guarded hlo hhi h.issued_past
  recalled := by
    intro m hm p hp hstamp
    rcases List.mem_cons.mp hp with rfl | hold
    · have := h.marks_past m hm
      simp only at hstamp
      omega
    · exact h.recalled m hm p hold hstamp

theorem sound_mark {L : Ledger α} (h : Sound L) : Sound (mark L) where
  live_issued := h.live_issued
  newest_first := h.newest_first
  issued_past := fun p hp => Nat.lt_succ_of_lt (h.issued_past p hp)
  marks_past := by
    intro m hm
    rcases List.mem_cons.mp hm with rfl | hold
    · exact Nat.lt_succ_self _
    · exact Nat.lt_succ_of_lt (h.marks_past m hold)
  guarded := h.guarded
  recalled := by
    intro m hm p hp hstamp
    rcases List.mem_cons.mp hm with rfl | hold
    · exact (h.guarded p hp).1
    · exact h.recalled m hold p hp hstamp

/-- A cut may go to any mark ever taken: what is older than the mark and still live
lies below it, whatever was cut in between. -/
theorem sound_cut {L : Ledger α} (h : Sound L) {m : Mark α} (hm : m ∈ L.marks) :
    Sound (cut L m) where
  live_issued := List.filter_sublist.trans h.live_issued
  newest_first := h.newest_first
  issued_past := fun p hp => Nat.lt_succ_of_lt (h.issued_past p hp)
  marks_past := fun k hk => Nat.lt_succ_of_lt (h.marks_past k hk)
  guarded := by
    apply guarded_cut h.guarded
    intro p hp
    obtain ⟨hlive,hold⟩ := List.mem_filter.mp hp
    exact ⟨hlive,h.recalled m hm p hlive (by simpa using hold)⟩
  recalled := fun k hk p hp hstamp => h.recalled k hk p (List.mem_of_mem_filter hp) hstamp

theorem sound_clear {L : Ledger α} (h : Sound L) (q : α) : Sound (clear L q) where
  live_issued := List.nil_sublist _
  newest_first := h.newest_first
  issued_past := fun p hp => Nat.lt_succ_of_lt (h.issued_past p hp)
  marks_past := fun m hm => Nat.lt_succ_of_lt (h.marks_past m hm)
  guarded := by simp [clear, Guarded]
  recalled := by simp [clear]

/-- What is live was granted in order of position: an older piece ends before a newer begins. -/
theorem sound_ordered {L : Ledger α} (h : Sound L) :
    L.live.Pairwise (fun newer older => older.hi ≤ newer.lo) := by
  apply List.Pairwise.imp_of_mem _ (h.newest_first.sublist h.live_issued)
  intro newer older hn ho hstamp
  exact (h.guarded older ho).2 newer (h.live_issued.subset hn) hstamp

structure Above (floor : α) (since : ℕ) (L : Ledger α) : Prop where
  cursor : floor ≤ L.pos
  marks : ∀ m ∈ L.marks, since ≤ m.stamp → floor ≤ m.pos
  issued : ∀ p ∈ L.issued, since ≤ p.stamp → floor ≤ p.lo

theorem above_start {L : Ledger α} (h : Sound L) : Above L.pos L.clock L where
  cursor := le_refl _
  marks := fun m hm hs => absurd (h.marks_past m hm) (by omega)
  issued := fun p hp hs => absurd (h.issued_past p hp) (by omega)

theorem above_advance {floor : α} {since : ℕ} {L : Ledger α} (h : Above floor since L)
    {q : α} (hq : L.pos ≤ q) : Above floor since (advance L q) :=
  ⟨h.cursor.trans hq,h.marks,h.issued⟩

theorem above_grant {floor : α} {since : ℕ} {L : Ledger α} (h : Above floor since L)
    {lo hi : α} (hlo : L.pos ≤ lo) (hhi : lo ≤ hi) : Above floor since (grant L lo hi) where
  cursor := h.cursor.trans (hlo.trans hhi)
  marks := h.marks
  issued := by
    intro p hp hs
    rcases List.mem_cons.mp hp with rfl | hold
    · exact h.cursor.trans hlo
    · exact h.issued p hold hs

theorem above_mark {floor : α} {since : ℕ} {L : Ledger α} (h : Above floor since L) :
    Above floor since (mark L) where
  cursor := h.cursor
  marks := by
    intro m hm hs
    rcases List.mem_cons.mp hm with rfl | hold
    · exact h.cursor
    · exact h.marks m hold hs
  issued := h.issued

theorem above_cut {floor : α} {since : ℕ} {L : Ledger α} (h : Above floor since L)
    {m : Mark α} (hm : m ∈ L.marks) (hs : since ≤ m.stamp) : Above floor since (cut L m) :=
  ⟨h.marks m hm hs,h.marks,h.issued⟩

end FastArena.BumpLedger
