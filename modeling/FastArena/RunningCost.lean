import FastArena.LabelledRun

/-!
# The cost of a run

Each step of a machine has a cost, and a potential is stored in each state. If
no step costs more than its credit and the potential it frees, a run costs no
more than its credits and the potential it starts with.
-/

set_option autoImplicit false

namespace FastArena.RunningCost
open FastArena.LabelledRun

variable {σ ℓ : Type*} (step : σ → ℓ → σ)

def total (cost : σ → ℓ → ℕ) : σ → List ℓ → ℕ
  | _, [] => 0
  | s, l::ls => cost s l + total cost (step s l) ls

theorem total_countP (price : ℕ) (p : ℓ → Bool) (s : σ) (ls : List ℓ) :
    total step (fun _ l => if p l then price else 0) s ls = price * ls.countP p := by
  induction ls generalizing s with
  | nil => rfl
  | cons l ls ih =>
    rw [total, ih (step s l), List.countP_cons, Nat.mul_add]
    split <;> omega

theorem total_zero (s : σ) (ls : List ℓ) : total step (fun _ _ => 0) s ls = 0 := by
  induction ls generalizing s with
  | nil => rfl
  | cons l ls ih => rw [total, ih (step s l)]

theorem total_linear (k : ℕ) (f g : σ → ℓ → ℕ) (s : σ) (ls : List ℓ) :
    total step (fun s l => k * f s l + g s l) s ls = k * total step f s ls + total step g s ls := by
  induction ls generalizing s with
  | nil => rfl
  | cons l ls ih =>
    rw [total, total, total, ih (step s l), Nat.mul_add]
    omega

/-- The potential rule. -/
theorem total_le_credit (ok : σ → ℓ → Prop) (cost credit : σ → ℓ → ℕ) (potential : σ → ℕ)
    (hstep : ∀ s l, ok s l → cost s l + potential (step s l) ≤ credit s l + potential s)
    (s : σ) (ls : List ℓ) (h : Along step ok s ls) :
    total step cost s ls + potential (run step s ls) ≤ total step credit s ls + potential s := by
  induction ls generalizing s with
  | nil => exact le_refl _
  | cons l ls ih =>
    have hhead := hstep s l h.1
    have htail := ih _ h.2
    change cost s l + total step cost (step s l) ls + potential (run step (step s l) ls) ≤
      credit s l + total step credit (step s l) ls + potential s
    omega

end FastArena.RunningCost
