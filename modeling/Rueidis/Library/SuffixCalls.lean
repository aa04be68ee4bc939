import Mathlib.Data.List.Basic

/-!
Calls that each answer for the positions of a list from a start on, and the list in which every answer
overwrites the end.
-/

namespace SuffixCalls

variable {α : Type}

/-- `append(xs[:len(xs)-len(ys)], ys...)`. -/
def overlay (xs ys : List α) : List α := xs.take (xs.length - ys.length) ++ ys

def latest (calls : List (Nat × List α)) (k : Nat) : Option α :=
  calls.foldl (fun found call => if call.1 ≤ k then call.2[k - call.1]? else found) none

variable {xs ys : List α} {calls : List (Nat × List α)} {start : Nat}

theorem length_overlay (h : ys.length ≤ xs.length) : (overlay xs ys).length = xs.length := by
  unfold overlay
  rw [List.length_append, List.length_take]
  omega

theorem latest_append (call : Nat × List α) (k : Nat) :
    latest (calls ++ [call]) k = if call.1 ≤ k then call.2[k - call.1]? else latest calls k := by
  unfold latest
  rw [List.foldl_append]
  rfl

theorem overlay_latest (hlen : ys.length + start = xs.length)
    (h : ∀ k, xs[k]? = latest calls k) (k : Nat) :
    (overlay xs ys)[k]? = latest (calls ++ [(start, ys)]) k := by
  have htake : (xs.take (xs.length - ys.length)).length = start := by
    rw [List.length_take]
    omega
  rw [latest_append]
  unfold overlay
  by_cases hk : start ≤ k
  · rw [if_pos hk, List.getElem?_append_right (by omega), htake]
  · rw [if_neg hk, List.getElem?_append_left (by omega), ← h,
      List.getElem?_take_of_lt (by omega)]

end SuffixCalls
