import Mathlib.Tactic
import Mathlib.Algebra.BigOperators.Group.Finset.Basic
import Mathlib.Order.Interval.Finset.Nat

/-!
# Half-open byte spans

Spans of addresses with the relations an allocator is judged by: one span lies
within another, two spans share no byte. A family of spans that share no byte
and end below a common bound has at most that many bytes altogether.
-/

set_option autoImplicit false

namespace FastArena.ByteSpan

structure Span where
  start : ℕ
  size : ℕ
  deriving DecidableEq, Repr

def Span.Has (s : Span) (x : ℕ) : Prop := s.start ≤ x ∧ x < s.start + s.size

def Span.Within (a b : Span) : Prop :=
  b.start ≤ a.start ∧ a.start + a.size ≤ b.start + b.size

instance (a b : Span) : Decidable (a.Within b) := inferInstanceAs (Decidable (_ ∧ _))

def Span.Apart (a b : Span) : Prop := ∀ x, a.Has x → ¬ b.Has x

theorem apart_symm {a b : Span} (h : a.Apart b) : b.Apart a :=
  fun x hb ha => h x ha hb

theorem apart_of_le {a b : Span} (h : a.start + a.size ≤ b.start) : a.Apart b := by
  intro x ha hb
  unfold Span.Has at ha hb
  omega

theorem apart_of_empty {a b : Span} (h : a.size = 0) : a.Apart b := by
  intro x ha
  unfold Span.Has at ha
  omega

theorem within_has {a b : Span} (h : a.Within b) {x : ℕ} (hx : a.Has x) : b.Has x := by
  unfold Span.Within at h
  unfold Span.Has at hx ⊢
  omega

theorem apart_of_within {a b c d : Span} (hab : a.Within b) (hcd : c.Within d)
    (h : b.Apart d) : a.Apart c :=
  fun x ha hc => h x (within_has hab ha) (within_has hcd hc)

theorem apart_within {a b c : Span} (h : a.Apart b) (hc : c.Within b) : a.Apart c :=
  fun x ha hx => h x ha (within_has hc hx)

theorem within_unique {a b c : Span} (hpos : 0 < a.size) (hb : a.Within b) (hc : a.Within c) :
    ¬ b.Apart c := by
  intro h
  have hx : a.Has a.start := ⟨le_refl _,by omega⟩
  exact h a.start (within_has hb hx) (within_has hc hx)

/-- Spans that share no byte cannot together be larger than the room they lie in. -/
theorem total_size_le (n top : ℕ) (span : ℕ → Span)
    (htop : ∀ i < n, (span i).start + (span i).size ≤ top)
    (hapart : ∀ i < n, ∀ j < n, i ≠ j → (span i).Apart (span j)) :
    ∑ i ∈ Finset.range n, (span i).size ≤ top := by
  let bytes := fun i => Finset.Ico (span i).start ((span i).start + (span i).size)
  have hdisjoint : Set.PairwiseDisjoint (Finset.range n : Set ℕ) bytes := by
    intro i hi j hj hij
    apply Finset.disjoint_left.mpr
    intro x hxi hxj
    exact hapart i (by simpa using hi) j (by simpa using hj) hij x
      (by simpa [bytes, Span.Has] using hxi) (by simpa [bytes, Span.Has] using hxj)
  have hsub : (Finset.range n).biUnion bytes ⊆ Finset.range top := by
    intro x hx
    obtain ⟨i,hi,hxi⟩ := Finset.mem_biUnion.mp hx
    have hend := htop i (by simpa using hi)
    have hlt := (Finset.mem_Ico.mp hxi).2
    exact Finset.mem_range.mpr (by omega)
  calc
    ∑ i ∈ Finset.range n, (span i).size = ∑ i ∈ Finset.range n, (bytes i).card := by
      simp [bytes]
    _ = ((Finset.range n).biUnion bytes).card := (Finset.card_biUnion hdisjoint).symm
    _ ≤ (Finset.range top).card := Finset.card_le_card hsub
    _ = top := Finset.card_range top

end FastArena.ByteSpan
