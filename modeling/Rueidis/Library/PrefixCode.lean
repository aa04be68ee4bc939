import Mathlib.Data.List.Basic

/-! Codes that can be cut off the front of a text in one way only, and their concatenations. -/

namespace PrefixCode

open List

variable {α β : Type*}

/-- On the values with `P`, the code of a value can be cut off in one way only. -/
def Splits (enc : α → List β) (P : α → Prop) : Prop :=
  ∀ a b x y, P a → P b → enc a ++ x = enc b ++ y → a = b ∧ x = y

theorem splits_lengthPrefixed {num : Nat → List β} {P : Nat → Prop} (hnum : Splits num P) :
    Splits (fun s : List β => num s.length ++ s) (fun s => P s.length) := by
  intro s t x y hs ht h
  rw [append_assoc, append_assoc] at h
  obtain ⟨hlen, hrest⟩ := hnum _ _ _ _ hs ht h
  exact append_inj hrest hlen

theorem flatMap_injOn {enc : α → List β} {P : α → Prop} (henc : Splits enc P)
    (hne : ∀ a, enc a ≠ []) {as bs : List α} (ha : ∀ a ∈ as, P a) (hb : ∀ b ∈ bs, P b)
    (h : as.flatMap enc = bs.flatMap enc) : as = bs := by
  induction as generalizing bs with
  | nil =>
    cases bs with
    | nil => rfl
    | cons b bs =>
      rw [flatMap_nil, flatMap_cons] at h
      exact absurd (append_eq_nil_iff.mp h.symm).1 (hne b)
  | cons a as ih =>
    cases bs with
    | nil =>
      rw [flatMap_nil, flatMap_cons] at h
      exact absurd (append_eq_nil_iff.mp h).1 (hne a)
    | cons b bs =>
      rw [flatMap_cons, flatMap_cons] at h
      rw [forall_mem_cons] at ha hb
      obtain ⟨hab, hrest⟩ := henc _ _ _ _ ha.1 hb.1 h
      rw [hab, ih ha.2 hb.2 hrest]

end PrefixCode
