import Mathlib.Data.List.Basic

/-!
Loops over a flat list that close a group after every `k`th element.

`scan` counts the elements, folds those of a group and starts anew after each group.  Over a list that
was put together from groups of `k` elements it gives one result for each group.
-/

namespace Groups

open List

variable {σ α β γ : Type*} (k : Nat) (step : σ → α → σ) (start : σ) (out : σ → β)

variable {f : γ → List α}

/-- The loop from the `i`th element on, with `acc` folded from the group so far. -/
def scan : Nat → σ → List α → List β
  | _, _, [] => []
  | i, acc, x :: xs =>
    if (i + 1) % k = 0 then out (step acc x) :: scan (i + 1) start xs
    else scan (i + 1) (step acc x) xs

variable {k}

theorem scan_append {i j : Nat} (hi : i % k = 0) {g : List α} (hg : g ≠ []) (hj : j + g.length = k)
    (acc : σ) (rest : List α) :
    scan k step start out (i + j) acc (g ++ rest) =
      out (g.foldl step acc) :: scan k step start out (i + k) start rest := by
  induction g generalizing j acc with
  | nil => exact absurd rfl hg
  | cons x g ih =>
    rw [length_cons] at hj
    rw [cons_append, scan, foldl_cons]
    have hmod : (i + j + 1) % k = (j + 1) % k := by
      rw [Nat.add_assoc, Nat.add_mod, hi, Nat.zero_add, Nat.mod_mod]
    cases g with
    | nil =>
      have hlast : j + 1 = k := by simpa using hj
      rw [hmod, hlast, Nat.mod_self, if_pos rfl, Nat.add_assoc, hlast]
      rfl
    | cons y g =>
      have hlt : j + 1 < k := by
        rw [length_cons] at hj
        omega
      rw [hmod, Nat.mod_eq_of_lt hlt, if_neg (Nat.succ_ne_zero j), Nat.add_assoc]
      exact ih (cons_ne_nil y g) (by omega) (step acc x)

theorem scan_flatMap (hk : 0 < k) (hf : ∀ x, (f x).length = k) {i : Nat} (hi : i % k = 0)
    (xs : List γ) :
    scan k step start out i start (xs.flatMap f) =
      xs.map fun x => out ((f x).foldl step start) := by
  induction xs generalizing i with
  | nil => rfl
  | cons x xs ih =>
    have hne : f x ≠ [] := by
      intro hnil
      have hlen := hf x
      rw [hnil, length_nil] at hlen
      omega
    have hgroup := scan_append step start out hi hne (j := 0) (by rw [hf x, Nat.zero_add]) start
      (xs.flatMap f)
    rw [Nat.add_zero] at hgroup
    rw [flatMap_cons, hgroup, map_cons, ih (by rw [Nat.add_mod_right, hi])]

theorem take_drop_flatMap (hf : ∀ x, (f x).length = k) {xs : List γ} {n : Nat} {x : γ}
    (hx : xs[n]? = some x) : ((xs.flatMap f).drop (n * k)).take k = f x := by
  induction xs generalizing n with
  | nil => simp at hx
  | cons y xs ih =>
    rw [flatMap_cons]
    cases n with
    | zero =>
      obtain rfl : y = x := by simpa using hx
      rw [Nat.zero_mul, drop_zero]
      exact take_left' (hf y)
    | succ n =>
      have hlen : (n + 1) * k = (f y).length + n * k := by
        rw [hf y, Nat.succ_mul, Nat.add_comm]
      rw [hlen, drop_length_add_append]
      exact ih (by simpa using hx)

theorem map_take_drop_flatMap (hf : ∀ x, (f x).length = k) (xs : List γ) :
    (range xs.length).map (fun n => ((xs.flatMap f).drop (n * k)).take k) = xs.map f := by
  apply ext_getElem
  · rw [length_map, length_range, length_map]
  · intro n hn hn'
    rw [length_map] at hn'
    rw [getElem_map, getElem_range, getElem_map]
    exact take_drop_flatMap hf (getElem?_eq_getElem hn')

end Groups
