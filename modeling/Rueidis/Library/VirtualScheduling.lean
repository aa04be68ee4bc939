import Mathlib.Algebra.BigOperators.Group.List.Basic
import Mathlib.Algebra.Order.Field.Basic
import Mathlib.Tactic.Linarith
import Mathlib.Tactic.Ring

/-!
# Virtual scheduling

Grants are paced by an arrival time that every grant moves on: a grant of one unit takes it at least
`E` further, from the present or from where it was, and it never gets further ahead of the present
than `B` units.  This bounds what is granted in any interval.
-/

namespace VirtualScheduling

open List

variable {K : Type*} [Field K] [LinearOrder K]

structure Grant (K : Type*) where
  time : K
  amount : K

def total (log : List (Grant K)) (t₁ t₂ : K) : K :=
  ((log.filter fun g => decide (t₁ ≤ g.time) && decide (g.time ≤ t₂)).map (·.amount)).sum

@[simp] theorem total_nil (t₁ t₂ : K) : total [] t₁ t₂ = 0 := rfl

theorem total_snoc (log : List (Grant K)) (g : Grant K) (t₁ t₂ : K) :
    total (log ++ [g]) t₁ t₂ =
      total log t₁ t₂ + if t₁ ≤ g.time ∧ g.time ≤ t₂ then g.amount else 0 := by
  unfold total
  rw [filter_append, map_append, sum_append]
  by_cases h : t₁ ≤ g.time ∧ g.time ≤ t₂
  · rw [if_pos h, filter_singleton]
    simp [h.1, h.2]
  · rw [if_neg h, filter_singleton, ← Bool.decide_and]
    simp [h]

/-- The grants of `log` were paced by the arrival time `tat`; the last of them was not after
`now`. -/
structure Paced (E B : K) (log : List (Grant K)) (tat now : K) : Prop where
  past : ∀ g ∈ log, g.time ≤ now
  ahead : ∀ t₁ t₂, t₁ ≤ t₂ → t₁ + E * total log t₁ t₂ ≤ max t₁ tat
  within : ∀ t₁ t₂, t₁ ≤ t₂ → t₁ + E * total log t₁ t₂ ≤ t₂ + E * B

namespace Paced

variable {E B : K} {log : List (Grant K)} {tat now : K}

theorem later (h : Paced E B log tat now) {now' : K} (hnow : now ≤ now') : Paced E B log tat now' :=
  { h with past := fun g hg => (h.past g hg).trans hnow }

theorem refuse (h : Paced E B log tat now) : Paced E B (log ++ [⟨now, 0⟩]) tat now := by
  have htotal : ∀ t₁ t₂, total (log ++ [⟨now, 0⟩]) t₁ t₂ = total log t₁ t₂ := by
    intro t₁ t₂
    rw [total_snoc, ite_self, add_zero]
  constructor
  · intro g hg
    rcases mem_append.mp hg with hg | hg
    · exact h.past g hg
    · rw [mem_singleton.mp hg]
  · intro t₁ t₂ ht
    rw [htotal]
    exact h.ahead t₁ t₂ ht
  · intro t₁ t₂ ht
    rw [htotal]
    exact h.within t₁ t₂ ht

variable [IsStrictOrderedRing K]

theorem nil (hE : 0 ≤ E) (hB : 0 ≤ B) (tat now : K) : Paced E B [] tat now := by
  constructor
  · nofun
  · intro t₁ t₂ _
    rw [total_nil, mul_zero, add_zero]
    exact le_max_left t₁ tat
  · intro t₁ t₂ ht
    have hpos := mul_nonneg hE hB
    rw [total_nil]
    linarith

theorem grant (h : Paced E B log tat now) (hE : 0 ≤ E) {amount cost : K} (hcost : 0 ≤ cost)
    (hamount : amount ≤ cost) (hroom : max tat now + E * cost ≤ now + E * B) :
    Paced E B (log ++ [⟨now, amount⟩]) (max tat now + E * cost) now := by
  have hadd : E * amount ≤ E * cost := mul_le_mul_of_nonneg_left hamount hE
  have hpos : 0 ≤ E * cost := mul_nonneg hE hcost
  -- a grant outside of the interval leaves the total as it was, one inside is the last one of it
  have hsplit : ∀ t₁ t₂, t₁ ≤ t₂ →
      total (log ++ [⟨now, amount⟩]) t₁ t₂ = total log t₁ t₂ ∨
      (now ≤ t₂ ∧ t₁ + E * total (log ++ [⟨now, amount⟩]) t₁ t₂ ≤ max tat now + E * cost) := by
    intro t₁ t₂ ht
    rw [total_snoc]
    by_cases hin : t₁ ≤ now ∧ now ≤ t₂
    · right
      rw [if_pos hin]
      have hle : max t₁ tat ≤ max tat now :=
        max_le (hin.1.trans (le_max_right tat now)) (le_max_left tat now)
      have hold := h.ahead t₁ t₂ ht
      refine ⟨hin.2, ?_⟩
      calc t₁ + E * (total log t₁ t₂ + amount)
          = t₁ + E * total log t₁ t₂ + E * amount := by ring
        _ ≤ max tat now + E * cost := add_le_add (hold.trans hle) hadd
    · left
      rw [if_neg hin, add_zero]
  constructor
  · intro g hg
    rcases mem_append.mp hg with hg | hg
    · exact h.past g hg
    · rw [mem_singleton.mp hg]
  · intro t₁ t₂ ht
    rcases hsplit t₁ t₂ ht with hsame | ⟨-, hle⟩
    · rw [hsame]
      apply (h.ahead t₁ t₂ ht).trans
      apply max_le_max_left
      linarith [le_max_left tat now]
    · exact hle.trans (le_max_right _ _)
  · intro t₁ t₂ ht
    rcases hsplit t₁ t₂ ht with hsame | ⟨hnow, hle⟩
    · rw [hsame]
      exact h.within t₁ t₂ ht
    · linarith

theorem total_le (h : Paced E B log tat now) (hE : 0 < E) {t₁ t₂ : K} (ht : t₁ ≤ t₂) :
    total log t₁ t₂ ≤ B + (t₂ - t₁) / E := by
  have hmul : E * total log t₁ t₂ ≤ E * (B + (t₂ - t₁) / E) := by
    have hcancel : E * ((t₂ - t₁) / E) = t₂ - t₁ := mul_div_cancel₀ _ hE.ne'
    rw [mul_add, hcancel]
    linarith [h.within t₁ t₂ ht]
  exact le_of_mul_le_mul_left hmul hE

end Paced

end VirtualScheduling
