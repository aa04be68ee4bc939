import Mathlib.Algebra.Order.Ring.Int
import Mathlib.Data.Nat.Log

/-!
Integers as floating point numbers with 53 significant bits.

`nearest` is the nearest such number, the even one of two that are equally near.
-/

namespace Double

variable {x : Int} {n : Nat}

/-- `2 ^ 53`: up to here every integer is kept. -/
def exact : Nat := 9007199254740992

def nearestNat (n : Nat) : Nat :=
  if n < exact then n
  else
    let e := Nat.log2 n - 52
    let q := n / (1 <<< e)
    let r := n % (1 <<< e)
    let up := decide (1 <<< e < 2 * r) || (decide (1 <<< e = 2 * r) && decide (q % 2 = 1))
    (if up then q + 1 else q) * (1 <<< e)

def nearest (x : Int) : Int :=
  match x with
  | .ofNat n => nearestNat n
  | .negSucc n => -(nearestNat (n + 1) : Int)

theorem nearestNat_of_lt (h : n < exact) : nearestNat n = n := if_pos h

theorem one_le_exponent (h : exact ≤ n) : 53 ≤ Nat.log2 n := by
  have hne : n ≠ 0 := by
    intro hzero
    rw [hzero] at h
    exact absurd h (by decide)
  rw [Nat.le_log2 hne]
  exact h

theorem le_nearestNat (h : exact ≤ n) : exact ≤ nearestNat n := by
  have hlog := one_le_exponent h
  have hne : n ≠ 0 := by
    intro hzero
    rw [hzero] at hlog
    exact absurd hlog (by decide)
  have hsplit : 2 ^ 52 * 2 ^ (Nat.log2 n - 52) ≤ n := by
    rw [← Nat.pow_add, Nat.add_sub_cancel' (Nat.le_of_succ_le hlog)]
    exact Nat.log2_self_le hne
  have hquot : 2 ^ 52 ≤ n / 2 ^ (Nat.log2 n - 52) := by
    rw [Nat.le_div_iff_mul_le (Nat.two_pow_pos _)]
    exact hsplit
  have htwo : 2 ^ 1 ≤ 2 ^ (Nat.log2 n - 52) := Nat.pow_le_pow_right (by decide) (by omega)
  rw [nearestNat, if_neg (Nat.not_lt.mpr h)]
  dsimp only
  rw [Nat.one_shiftLeft]
  calc exact = 2 ^ 52 * 2 ^ 1 := by decide
    _ ≤ n / 2 ^ (Nat.log2 n - 52) * 2 ^ (Nat.log2 n - 52) := Nat.mul_le_mul hquot htwo
    _ ≤ _ := by
        apply Nat.mul_le_mul_right
        split
        · exact Nat.le_succ _
        · exact Nat.le_refl _

theorem two_mul_nearestNat_le (h : exact ≤ n) :
    2 * nearestNat n ≤ 2 * n + 2 ^ (Nat.log2 n - 52) := by
  rw [nearestNat, if_neg (Nat.not_lt.mpr h)]
  dsimp only
  rw [Nat.one_shiftLeft]
  have hdiv := Nat.div_add_mod n (2 ^ (Nat.log2 n - 52))
  rw [Nat.mul_comm] at hdiv
  split
  next hup =>
    rw [Bool.or_eq_true, Bool.and_eq_true, decide_eq_true_eq, decide_eq_true_eq] at hup
    rw [Nat.add_mul]
    omega
  next => omega

theorem nearestNat_lt (h : n < 9223372036854775296) : nearestNat n < 9223372036854775808 := by
  by_cases hsmall : n < exact
  · rw [nearestNat_of_lt hsmall]
    omega
  · have hlarge : exact ≤ n := Nat.not_lt.mp hsmall
    have hne : n ≠ 0 := by
      intro hzero
      rw [hzero] at hlarge
      exact absurd hlarge (by decide)
    have hlog : Nat.log2 n < 63 := (Nat.log2_lt hne).mpr (by omega)
    have hgap : 2 ^ (Nat.log2 n - 52) ≤ 2 ^ 10 := Nat.pow_le_pow_right (by decide) (by omega)
    have hround := two_mul_nearestNat_le hlarge
    omega

theorem nearest_natCast (n : Nat) : nearest (n : Int) = nearestNat n := rfl

theorem nearest_of_natAbs_lt (h : x.natAbs < exact) : nearest x = x := by
  cases x with
  | ofNat n => exact congrArg Int.ofNat (nearestNat_of_lt h)
  | negSucc n => exact congrArg Int.negOfNat (nearestNat_of_lt h)

theorem nearest_of_lt (h₀ : 0 ≤ x) (h : x < exact) : nearest x = x :=
  nearest_of_natAbs_lt (by omega)

theorem le_nearest (h : exact ≤ x) : exact ≤ nearest x := by
  obtain ⟨n, rfl⟩ := Int.eq_ofNat_of_zero_le (le_trans (Int.natCast_nonneg _) h)
  rw [nearest_natCast]
  exact_mod_cast le_nearestNat (by exact_mod_cast h)

theorem nearest_lt (h₀ : 0 ≤ x) (h : x < 9223372036854775296) :
    nearest x < 9223372036854775808 := by
  obtain ⟨n, rfl⟩ := Int.eq_ofNat_of_zero_le h₀
  rw [nearest_natCast]
  exact_mod_cast nearestNat_lt (by exact_mod_cast h)

theorem nearest_nonneg (h₀ : 0 ≤ x) : 0 ≤ nearest x := by
  obtain ⟨n, rfl⟩ := Int.eq_ofNat_of_zero_le h₀
  rw [nearest_natCast]
  exact Int.natCast_nonneg _

theorem nearest_nonpos (h : x < 0) : nearest x ≤ 0 := by
  obtain ⟨n, rfl⟩ := Int.eq_negSucc_of_lt_zero h
  exact Int.neg_nonpos_of_nonneg (Int.natCast_nonneg _)

theorem eq_of_nearest_lt (h₀ : 0 ≤ x) (h : nearest x < exact) : nearest x = x := by
  by_cases hx : x < exact
  · exact nearest_of_lt h₀ hx
  · exact absurd (le_nearest (not_lt.mp hx)) (not_le.mpr h)

end Double
