import Mathlib.Data.List.Basic

/-! Two majorities have a member in common. -/

namespace Quorum

variable {α β : Type} {p : α → Bool} {q : β → Bool}

/-- Two lists of votes over the same `n` places, with more than `n` votes together, agree on a
place. -/
theorem exists_common {xs : List α} {ys : List β} {n : Nat} (hxs : xs.length ≤ n)
    (hys : ys.length ≤ n) (hmany : n < xs.countP p + ys.countP q) :
    ∃ (i : Nat) (x : α) (y : β),
      xs[i]? = some x ∧ ys[i]? = some y ∧ p x = true ∧ q y = true := by
  induction xs generalizing ys n with
  | nil =>
    have hle : ys.countP q ≤ ys.length := List.countP_le_length
    rw [List.countP_nil] at hmany
    omega
  | cons x xs ih =>
    cases ys with
    | nil =>
      have hle : (x :: xs).countP p ≤ (x :: xs).length := List.countP_le_length
      rw [List.countP_nil] at hmany
      omega
    | cons y ys =>
      by_cases hboth : p x = true ∧ q y = true
      · exact ⟨0, x, y, rfl, rfl, hboth⟩
      · -- the first place has one vote at most
        rw [List.countP_cons, List.countP_cons] at hmany
        rw [List.length_cons] at hxs hys
        have hone : (if p x = true then 1 else 0) + (if q y = true then 1 else 0) ≤ 1 := by
          by_cases hp : p x = true
          · have hq : ¬ q y = true := fun hq => hboth ⟨hp, hq⟩
            simp [hp, hq]
          · rw [if_neg hp]
            split <;> omega
        obtain ⟨i, x', y', hx, hy, hvotes⟩ := @ih ys (n - 1) (by omega) (by omega) (by omega)
        exact ⟨i + 1, x', y', hx, hy, hvotes⟩

end Quorum
