import Mathlib.Tactic

/-!
# Sixty-four bit machine words

A word is a natural number below `2^64`. Unchecked operations wrap, as they do
in a release build; checked and saturating ones are separate functions. Bit
masking is kept as a bit operation and related to division once, here.
-/

set_option autoImplicit false

namespace FastArena.MachineWord

def wadd (a b : ℕ) : ℕ := (a + b) % 2^64

def wsub (a b : ℕ) : ℕ := (2^64 + a - b) % 2^64

def wmul (a b : ℕ) : ℕ := (a * b) % 2^64

def wnot (a : ℕ) : ℕ := 2^64 - (a + 1)

def checkedAdd (a b : ℕ) : Option ℕ := if a + b < 2^64 then some (a + b) else none

def checkedMul (a b : ℕ) : Option ℕ := if a * b < 2^64 then some (a * b) else none

def saturatingAdd (a b : ℕ) : ℕ := min (a + b) (2^64 - 1)

def saturatingMul (a b : ℕ) : ℕ := min (a * b) (2^64 - 1)

def PowerOfTwo (n : ℕ) : Prop := ∃ k, k < 64 ∧ n = 2^k

instance (n : ℕ) : Decidable (PowerOfTwo n) :=
  inferInstanceAs (Decidable (∃ k, k < 64 ∧ n = 2^k))

theorem powerOfTwo_one : PowerOfTwo 1 := ⟨0,by norm_num,rfl⟩

theorem powerOfTwo_eight : PowerOfTwo 8 := ⟨3,by norm_num,rfl⟩

def checkedNextPowerOfTwo (n : ℕ) : Option ℕ :=
  let p := if n ≤ 1 then 1 else 2^(Nat.log2 (n - 1) + 1)
  if p < 2^64 then some p else none

theorem wadd_lt (a b : ℕ) : wadd a b < 2^64 := Nat.mod_lt _ (by norm_num)

theorem wsub_lt (a b : ℕ) : wsub a b < 2^64 := Nat.mod_lt _ (by norm_num)

theorem wadd_eq {a b : ℕ} (h : a + b < 2^64) : wadd a b = a + b := Nat.mod_eq_of_lt h

theorem wmul_eq {a b : ℕ} (h : a * b < 2^64) : wmul a b = a * b := Nat.mod_eq_of_lt h

theorem wsub_eq {a b : ℕ} (h : b ≤ a) (ha : a < 2^64) : wsub a b = a - b := by
  unfold wsub
  omega

theorem wsub_self {a : ℕ} (ha : a < 2^64) : wsub a a = 0 := by
  rw [wsub_eq (le_refl a) ha, Nat.sub_self]

/-- Subtraction undoes a wrapping addition even when the sum wrapped. -/
theorem wsub_wadd_cancel {a b : ℕ} (ha : a < 2^64) (hb : b < 2^64) :
    wsub (wadd a b) b = a := by
  unfold wsub wadd
  omega

theorem wadd_eq_self_iff {a b : ℕ} (ha : a < 2^64) (hb : b < 2^64) :
    wadd a b = a ↔ b = 0 := by
  unfold wadd
  omega

theorem checkedAdd_some {a b c : ℕ} (h : checkedAdd a b = some c) :
    c = a + b ∧ a + b < 2^64 := by
  unfold checkedAdd at h
  split at h
  · exact ⟨(Option.some.inj h).symm, by assumption⟩
  · cases h

theorem checkedMul_some {a b c : ℕ} (h : checkedMul a b = some c) :
    c = a * b ∧ a * b < 2^64 := by
  unfold checkedMul at h
  split at h
  · exact ⟨(Option.some.inj h).symm, by assumption⟩
  · cases h

theorem powerOfTwo_pos {n : ℕ} (h : PowerOfTwo n) : 0 < n := by
  obtain ⟨k,-,rfl⟩ := h
  positivity

theorem powerOfTwo_le {n : ℕ} (h : PowerOfTwo n) : n ≤ 2^63 := by
  obtain ⟨k,hk,rfl⟩ := h
  exact Nat.pow_le_pow_right (by norm_num) (by omega)

theorem powerOfTwo_dvd {a b : ℕ} (ha : PowerOfTwo a) (hb : PowerOfTwo b) (h : a ≤ b) : a ∣ b := by
  obtain ⟨j,-,rfl⟩ := ha
  obtain ⟨k,-,rfl⟩ := hb
  exact pow_dvd_pow 2 ((Nat.pow_le_pow_iff_right (by norm_num)).mp h)

/-- Clearing the low `k` bits with a mask is rounding down to a multiple of `2^k`. -/
theorem land_mask (x k : ℕ) (hx : x < 2^64) (hk : k < 64) :
    x &&& wnot (2^k - 1) = x / 2^k * 2^k := by
  have hpow : 2^k - 1 < 2^64 := by
    have : 2^k < 2^64 := Nat.pow_lt_pow_right (by norm_num) hk
    omega
  apply Nat.eq_of_testBit_eq
  intro i
  rw [Nat.testBit_and, wnot, Nat.testBit_two_pow_sub_succ hpow, Nat.testBit_two_pow_sub_one,
    Nat.testBit_mul_two_pow, Nat.testBit_div_two_pow]
  by_cases hki : k ≤ i
  · by_cases hi : i < 64
    · simp [hki, hi, Nat.not_lt.mpr hki, Nat.sub_add_cancel hki]
    · have hbit : x.testBit i = false :=
        Nat.testBit_lt_two_pow (lt_of_lt_of_le hx (Nat.pow_le_pow_right (by norm_num) (by omega)))
      simp [hki, hi, hbit, Nat.sub_add_cancel hki]
  · simp [hki, Nat.lt_of_not_le hki]

theorem checkedNextPowerOfTwo_some {n p : ℕ} (h : checkedNextPowerOfTwo n = some p) :
    PowerOfTwo p ∧ n ≤ p := by
  unfold checkedNextPowerOfTwo at h
  dsimp only at h
  by_cases hn : n ≤ 1
  · simp only [hn, if_true, show (1:ℕ) < 2^64 by norm_num] at h
    cases h
    exact ⟨powerOfTwo_one,hn⟩
  · simp only [hn, if_false] at h
    split at h
    next hp =>
      cases h
      refine ⟨⟨_,(Nat.pow_lt_pow_iff_right (by norm_num)).mp hp,rfl⟩,?_⟩
      have := @Nat.lt_log2_self (n - 1)
      omega
    next => cases h

theorem checkedNextPowerOfTwo_least {n p q : ℕ} (h : checkedNextPowerOfTwo n = some p)
    (hq : PowerOfTwo q) (hn : n ≤ q) : p ≤ q := by
  obtain ⟨j,-,rfl⟩ := hq
  unfold checkedNextPowerOfTwo at h
  dsimp only at h
  by_cases h1 : n ≤ 1
  · simp only [h1, if_true, show (1:ℕ) < 2^64 by norm_num] at h
    cases h
    exact Nat.one_le_two_pow
  · simp only [h1, if_false] at h
    split at h
    next =>
      cases h
      apply Nat.pow_le_pow_right (by norm_num)
      have hlog : Nat.log2 (n - 1) < j := (Nat.log2_lt (by omega)).mpr (by omega)
      omega
    next => cases h

theorem checkedNextPowerOfTwo_none {n : ℕ} (h : checkedNextPowerOfTwo n = none) : 2^63 < n := by
  unfold checkedNextPowerOfTwo at h
  dsimp only at h
  by_cases h1 : n ≤ 1
  · simp [h1] at h
  · simp only [h1, if_false] at h
    split at h
    next => cases h
    next hp =>
      by_contra hn
      have hlog : Nat.log2 (n - 1) < 63 := (Nat.log2_lt (by omega)).mpr (by omega)
      exact hp (Nat.pow_lt_pow_right (by norm_num) (by omega))

end FastArena.MachineWord
