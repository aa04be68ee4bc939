import Mathlib.Data.List.Basic

/-!
Traces of events that use and free objects: no object is freed twice, and none is used after it was
freed.
-/

namespace Recycling

variable {ε ι : Type} (uses frees : ε → ι → Prop)

def Safe (trace : List ε) : Prop :=
  trace.Pairwise fun a b => ∀ i, frees a i → ¬ frees b i ∧ ¬ uses b i

variable {uses frees} {xs ys : List ε}

theorem safe_append_iff (h : ∀ a ∈ xs, ∀ i, ¬ frees a i) :
    Safe uses frees (xs ++ ys) ↔ Safe uses frees ys := by
  unfold Safe
  rw [List.pairwise_append]
  constructor
  · exact fun hsafe => hsafe.2.1
  · refine fun hsafe => ⟨?_, hsafe, fun a ha b _ i hi => absurd hi (h a ha i)⟩
    exact List.pairwise_of_forall_mem_list fun a ha b _ i hi => absurd hi (h a ha i)

theorem not_safe_of_use {a b : ε} {i : ι} (ha : a ∈ xs) (hb : b ∈ ys) (hfree : frees a i)
    (huse : uses b i) : ¬ Safe uses frees (xs ++ ys) := by
  intro hsafe
  exact ((List.pairwise_append.mp hsafe).2.2 a ha b hb i hfree).2 huse

end Recycling
