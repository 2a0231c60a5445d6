import Mathlib.Tactic

/-!
# Runs of a labelled machine

A machine is a step function on states and labels. A run feeds it a list of
labels; a guard on each state and label met singles out the runs of interest.
What a guarded step preserves, a guarded run preserves.
-/

set_option autoImplicit false

namespace FastArena.LabelledRun

variable {σ ℓ : Type*} (step : σ → ℓ → σ) (ok : σ → ℓ → Prop)

def run : σ → List ℓ → σ
  | s, [] => s
  | s, l::ls => run (step s l) ls

/-- Every step of the run meets the guard in the state it is taken from. -/
def Along : σ → List ℓ → Prop
  | _, [] => True
  | s, l::ls => ok s l ∧ Along (step s l) ls

def Always (p : σ → Prop) : σ → List ℓ → Prop
  | s, [] => p s
  | s, l::ls => p s ∧ Always p (step s l) ls

theorem always_iff (p : σ → Prop) (s : σ) (ls : List ℓ) :
    Always step p s ls ↔ p s ∧ Along step (fun s l => p (step s l)) s ls := by
  induction ls generalizing s with
  | nil => exact (and_iff_left trivial).symm
  | cons l ls ih =>
    show p s ∧ Always step p (step s l) ls ↔ p s ∧ p (step s l) ∧ _
    rw [ih]

theorem run_append (s : σ) (ls rest : List ℓ) :
    run step s (ls++rest) = run step (run step s ls) rest := by
  induction ls generalizing s with
  | nil => rfl
  | cons l ls ih => exact ih _

theorem along_append (s : σ) (ls rest : List ℓ) :
    Along step ok s (ls++rest) ↔ Along step ok s ls ∧ Along step ok (run step s ls) rest := by
  induction ls generalizing s with
  | nil => simp [Along, run]
  | cons l ls ih => simp [Along, run, ih, and_assoc]

theorem along_mono {ok' : σ → ℓ → Prop} (hok : ∀ s l, ok s l → ok' s l) (s : σ) (ls : List ℓ)
    (h : Along step ok s ls) : Along step ok' s ls := by
  induction ls generalizing s with
  | nil => trivial
  | cons l ls ih => exact ⟨hok s l h.1,ih _ h.2⟩

theorem along_of_forall {p : ℓ → Prop} (s : σ) (ls : List ℓ) (h : ∀ l ∈ ls, p l) :
    Along step (fun _ l => p l) s ls := by
  induction ls generalizing s with
  | nil => trivial
  | cons l ls ih =>
    exact ⟨h l List.mem_cons_self,ih _ (fun l' hl => h l' (List.mem_cons_of_mem _ hl))⟩

theorem along_and {p q : σ → ℓ → Prop} (s : σ) (ls : List ℓ) (hp : Along step p s ls)
    (hq : Along step q s ls) : Along step (fun s l => p s l ∧ q s l) s ls := by
  induction ls generalizing s with
  | nil => trivial
  | cons l ls ih => exact ⟨⟨hp.1,hq.1⟩,ih _ hp.2 hq.2⟩

/-- The invariant rule: a property kept by each guarded step holds after every guarded run. -/
theorem run_invariant (inv : σ → Prop) (hstep : ∀ s l, inv s → ok s l → inv (step s l))
    (s : σ) (ls : List ℓ) (hs : inv s) (h : Along step ok s ls) : inv (run step s ls) := by
  induction ls generalizing s with
  | nil => exact hs
  | cons l ls ih => exact ih _ (hstep s l hs h.1) h.2

theorem along_invariant (inv : σ → Prop) (hstep : ∀ s l, inv s → ok s l → inv (step s l))
    (s : σ) (ls : List ℓ) (hs : inv s) (h : Along step ok s ls) :
    Along step (fun s _ => inv s) s ls := by
  induction ls generalizing s with
  | nil => trivial
  | cons l ls ih => exact ⟨hs,ih _ (hstep s l hs h.1) h.2⟩

/-- Two guards that agree wherever an invariant holds, one that the steps they let through keep,
single out the same runs. -/
theorem along_congr_while (inv : σ → Prop) {p q : σ → ℓ → Prop}
    (hpq : ∀ s l, inv s → ok s l → (p s l ↔ q s l))
    (hstep : ∀ s l, inv s → ok s l → q s l → inv (step s l))
    (s : σ) (ls : List ℓ) (hs : inv s) (h : Along step ok s ls) :
    Along step p s ls ↔ Along step q s ls := by
  induction ls generalizing s with
  | nil => exact Iff.rfl
  | cons l ls ih =>
    show p s l ∧ _ ↔ q s l ∧ _
    rw [hpq s l hs h.1]
    exact and_congr_right (fun hq => ih _ (hstep s l hs h.1 hq) h.2)

theorem along_congr (inv : σ → Prop) (hstep : ∀ s l, inv s → ok s l → inv (step s l))
    {p q : σ → ℓ → Prop} (hpq : ∀ s l, inv s → ok s l → (p s l ↔ q s l))
    (s : σ) (ls : List ℓ) (hs : inv s) (h : Along step ok s ls) :
    Along step p s ls ↔ Along step q s ls :=
  along_congr_while step ok inv hpq (fun s l hinv hl _ => hstep s l hinv hl) s ls hs h

/-- The rule for two runs side by side: a relation that related labels keep, where both steps meet
their guards, relates the ends of the runs. -/
theorem run_lockstep {τ κ : Type*} (step' : τ → κ → τ) (ok' : τ → κ → Prop) (rel : σ → τ → Prop)
    (same : ℓ → κ → Prop)
    (hstep : ∀ s t l k, rel s t → same l k → ok s l → ok' t k → rel (step s l) (step' t k))
    (s : σ) (t : τ) {ls : List ℓ} {ks : List κ} (hlabels : List.Forall₂ same ls ks) (h : rel s t)
    (hs : Along step ok s ls) (ht : Along step' ok' t ks) :
    rel (run step s ls) (run step' t ks) := by
  induction hlabels generalizing s t with
  | nil => exact h
  | cons hlabel _ ih => exact ih _ _ (hstep s t _ _ h hlabel hs.1 ht.1) hs.2 ht.2

end FastArena.LabelledRun
