import Mathlib.Data.List.Basic

/-!
Scans for the elements of a list that satisfy a test: the nearest one at or before a position, and
the nearest one at or behind it.
-/

namespace Boundaries

open List

variable {α : Type} (b : α → Bool)

def hit (xs : List α) (i : Nat) : Bool := xs[i]?.any b

/-- `for j = i; j >= 0 && !b(xs[j]); j--`. -/
def scanDown (xs : List α) : Nat → Int
  | 0 => if hit b xs 0 then 0 else -1
  | i + 1 => if hit b xs (i + 1) then (i + 1 : Nat) else scanDown xs i

/-- `for j = i; j < len(xs) && !b(xs[j]); j++`. -/
def scanUp (xs : List α) (i : Nat) : Nat := i + (xs.drop i).findIdx b

variable {b} {xs : List α}

theorem hit_iff {i : Nat} : hit b xs i = true ↔ ∃ x, xs[i]? = some x ∧ b x = true := by
  unfold hit
  cases xs[i]? with
  | none => simp
  | some x => simp

theorem hit_eq_getD {d : α} (hd : b d = false) (i : Nat) : hit b xs i = b (xs.getD i d) := by
  unfold hit
  rw [getD_eq_getElem?_getD]
  cases xs[i]? with
  | none => exact hd.symm
  | some x => rfl

theorem lt_length_of_hit {i : Nat} (h : hit b xs i = true) : i < xs.length := by
  obtain ⟨x, hx, -⟩ := hit_iff.mp h
  exact (List.getElem?_eq_some_iff.mp hx).1

theorem scanDown_eq {m i : Nat} (hm : hit b xs m = true) (hle : m ≤ i)
    (hbetween : ∀ k, m < k → k ≤ i → hit b xs k = false) : scanDown b xs i = m := by
  induction i with
  | zero =>
    obtain rfl : m = 0 := by omega
    rw [scanDown, if_pos hm]
    rfl
  | succ i ih =>
    by_cases h : m = i + 1
    · rw [scanDown, ← h, if_pos hm]
    · rw [scanDown, hbetween (i + 1) (by omega) (by omega)]
      exact ih (by omega) fun k hk hki => hbetween k hk (by omega)

theorem scanDown_cases (i : Nat) :
    scanDown b xs i = -1 ∨ ∃ m ≤ i, scanDown b xs i = m ∧ hit b xs m = true ∧
      ∀ k, m < k → k ≤ i → hit b xs k = false := by
  induction i with
  | zero =>
    by_cases h : hit b xs 0 = true
    · exact .inr ⟨0, Nat.le_refl 0, by rw [scanDown, if_pos h]; rfl, h, fun k _ _ => by omega⟩
    · exact .inl (by rw [scanDown, if_neg h])
  | succ i ih =>
    by_cases h : hit b xs (i + 1) = true
    · exact .inr ⟨i + 1, Nat.le_refl _, by rw [scanDown, if_pos h], h, fun k _ _ => by omega⟩
    · rw [scanDown, if_neg h]
      rcases ih with hnone | ⟨m, hmi, heq, hm, hbetween⟩
      · exact .inl hnone
      · refine .inr ⟨m, by omega, heq, hm, fun k hk hki => ?_⟩
        by_cases hlast : k = i + 1
        · rw [hlast]
          exact Bool.eq_false_iff.mpr h
        · exact hbetween k hk (by omega)

theorem le_scanUp (i : Nat) : i ≤ scanUp b xs i := Nat.le_add_right _ _

theorem hit_drop (i j : Nat) : hit b (xs.drop i) j = hit b xs (i + j) := by
  unfold hit
  rw [getElem?_drop]

theorem not_hit_of_lt_findIdx {j : Nat} (h : j < xs.findIdx b) : hit b xs j = false := by
  have hlt : j < xs.length := Nat.lt_of_lt_of_le h findIdx_le_length
  have hnot := not_of_lt_findIdx h
  unfold hit
  rw [getElem?_eq_getElem hlt, Option.any_some]
  exact hnot

theorem not_hit_of_lt_scanUp {i k : Nat} (hik : i ≤ k) (hk : k < scanUp b xs i) :
    hit b xs k = false := by
  unfold scanUp at hk
  rw [show k = i + (k - i) by omega, ← hit_drop]
  exact not_hit_of_lt_findIdx (by omega)

theorem hit_scanUp {i : Nat} (h : scanUp b xs i < xs.length) : hit b xs (scanUp b xs i) = true := by
  unfold scanUp at h ⊢
  have hlt : (xs.drop i).findIdx b < (xs.drop i).length := by
    rw [length_drop]
    omega
  rw [← hit_drop, hit, getElem?_eq_getElem hlt, Option.any_some]
  exact findIdx_getElem

theorem scanUp_eq {e i : Nat} (he : hit b xs e = true) (hle : i ≤ e)
    (hbetween : ∀ k, i ≤ k → k < e → hit b xs k = false) : scanUp b xs i = e := by
  rcases Nat.lt_trichotomy (scanUp b xs i) e with hlt | heq | hgt
  · have hhit := hit_scanUp (b := b) (Nat.lt_trans hlt (lt_length_of_hit he))
    rw [hbetween _ (le_scanUp i) hlt] at hhit
    cases hhit
  · exact heq
  · rw [not_hit_of_lt_scanUp hle hgt] at he
    cases he

end Boundaries
