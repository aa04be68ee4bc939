import Mathlib.Data.List.Pairwise

/-!
A cell whose writers name the version they have read.

An attempt succeeds when the cell is empty or holds the version it offers, and then leaves the next
version.  In a history of attempts the offered versions of the successful ones grow, so no two of them
offer the same version.
-/

namespace VersionedCell

structure Attempt where
  offered : Int
  before : Option Int
  after : Option Int
  succeeded : Bool
deriving DecidableEq, Repr

/-- The cell admits the attempt exactly when it is empty or holds the offered version. -/
structure Attempt.Valid (a : Attempt) : Prop where
  succeeded_iff : a.succeeded = true ↔ a.before = none ∨ a.before = some a.offered
  after_eq : a.after = if a.succeeded then some (a.offered + 1) else a.before

def Linked : Option Int → List Attempt → Option Int → Prop
  | v, [], w => v = w
  | v, a :: as, w => a.before = v ∧ a.Valid ∧ Linked a.after as w

variable {v w : Option Int} {as : List Attempt} {a : Attempt}

theorem Linked.snoc (h : Linked v as w) (hbefore : a.before = w) (ha : a.Valid) :
    Linked v (as ++ [a]) a.after := by
  induction as generalizing v with
  | nil =>
    cases h
    exact ⟨hbefore, ha, rfl⟩
  | cons b as ih => exact ⟨h.1, h.2.1, ih h.2.2⟩

theorem Linked.valid (h : Linked v as w) (ha : a ∈ as) : a.Valid := by
  induction as generalizing v with
  | nil => cases ha
  | cons b as ih =>
    cases ha with
    | head => exact h.2.1
    | tail _ hmem => exact ih h.2.2 hmem

/-- From a cell with the version `v` on only versions from `v` on are accepted. -/
theorem Linked.le_offered {v : Int} (h : Linked (some v) as w) (ha : a ∈ as)
    (hs : a.succeeded = true) : v ≤ a.offered := by
  induction as generalizing v with
  | nil => cases ha
  | cons b as ih =>
    obtain ⟨hbefore, hvalid, hrest⟩ := h
    have hb : b.succeeded = true → b.offered = v := by
      intro hb
      rcases hvalid.succeeded_iff.mp hb with hnone | hsome
      · rw [hnone] at hbefore
        cases hbefore
      · rw [hsome] at hbefore
        exact Option.some.inj hbefore
    cases ha with
    | head => exact Int.le_of_eq (hb hs).symm
    | tail _ hmem =>
      rw [hvalid.after_eq] at hrest
      split at hrest
      · rename_i hbs
        have := ih hrest hmem
        rw [hb hbs] at this
        omega
      · rw [hbefore] at hrest
        exact ih hrest hmem

theorem Linked.increasing (h : Linked v as w) :
    as.Pairwise fun a b => a.succeeded = true → b.succeeded = true → a.offered < b.offered := by
  induction as generalizing v with
  | nil => exact List.Pairwise.nil
  | cons a as ih =>
    obtain ⟨-, hvalid, hrest⟩ := h
    apply List.Pairwise.cons
    · intro b hmem ha hb
      rw [hvalid.after_eq, if_pos ha] at hrest
      have := hrest.le_offered hmem hb
      omega
    · exact ih hrest

end VersionedCell
