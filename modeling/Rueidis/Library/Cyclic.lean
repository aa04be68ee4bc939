import Mathlib.Data.List.Perm.Basic
import Mathlib.Data.List.Count
import Mathlib.Data.Int.ModEq

/-! Positions on a circle: the slots that consecutive tickets `1, 2, 3, …` get. -/

namespace Cyclic

open List

def turns (m n : Nat) : List Nat := (List.range n).map fun i => (i + 1) % m

theorem turns_succ (m n : Nat) : turns m (n + 1) = turns m n ++ [(n + 1) % m] := by
  unfold turns
  rw [range_succ, map_append, map_singleton]

theorem getElem?_turns {m n i : Nat} (h : i < n) : (turns m n)[i]? = some ((i + 1) % m) := by
  unfold turns
  rw [getElem?_map, getElem?_range h, Option.map_some]

-- fewer than `m` tickets apart means different slots
theorem mod_ne_of_lt {m i j : Nat} (hij : i < j) (hwindow : j < i + m) : i % m ≠ j % m := by
  intro h
  have hdvd : m ∣ j - i := (Nat.modEq_iff_dvd' (Nat.le_of_lt hij)).mp h
  have := Nat.le_of_dvd (by omega) hdvd
  omega

theorem mem_of_perm_turns {m n k : Nat} {rest : List Nat} (h : (turns m n).Perm (rest ++ turns m k))
    (hk : k < n) : (k + 1) % m ∈ rest := by
  obtain ⟨d, rfl⟩ : ∃ d, n = k + 1 + d := ⟨n - (k + 1), by omega⟩
  have hmore : (turns m k ++ [(k + 1) % m]).Sublist (turns m (k + 1 + d)) := by
    rw [← turns_succ]
    apply Sublist.map
    exact range_sublist.mpr (by omega)
  have hcount := hmore.count_le ((k + 1) % m)
  rw [h.count_eq, count_append, count_append, count_singleton_self] at hcount
  exact count_pos_iff.mp (by omega)

end Cyclic
