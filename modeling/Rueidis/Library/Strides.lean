import Mathlib.Data.List.Forall2

/-!
Lists made of frames of one length, whose elements are found by position, and loops over a list that
stop at the first failure.
-/

namespace Strides

open List

variable {α β ε : Type}

section Frames

variable {stride : Nat} {f : α → List β} {xs : List α}

variable (hf : ∀ a ∈ xs, (f a).length = stride)

include hf

theorem length_flatMap : (xs.flatMap f).length = stride * xs.length := by
  induction xs with
  | nil => rfl
  | cons a xs ih =>
    rw [forall_mem_cons] at hf
    rw [flatMap_cons, length_append, ih hf.2, hf.1, length_cons, Nat.mul_succ]
    omega

theorem drop_flatMap (j : Nat) : (xs.flatMap f).drop (stride * j) = (xs.drop j).flatMap f := by
  induction j generalizing xs with
  | zero => rfl
  | succ j ih =>
    cases xs with
    | nil => simp
    | cons a xs =>
      rw [forall_mem_cons] at hf
      have hlen : stride * (j + 1) = (f a).length + stride * j := by
        rw [hf.1, Nat.mul_succ]
        omega
      rw [flatMap_cons, hlen, ← drop_drop, drop_left, drop_succ_cons, ih hf.2]

theorem frame_eq {j : Nat} {a : α} (ha : xs[j]? = some a) :
    ((xs.flatMap f).drop (stride * j)).take stride = f a := by
  rw [drop_flatMap hf, drop_eq_getElem?_toList_append, ha]
  show ((f a) ++ _).take stride = f a
  rw [← hf a (mem_of_getElem? ha), take_left]

end Frames

theorem last_iff {stride n p : Nat} (hpos : 0 < stride) :
    (p < n ∧ p % stride = stride - 1) ↔ ∃ j < n / stride, p = stride * j + (stride - 1) := by
  constructor
  · rintro ⟨hp, hmod⟩
    have hdiv := Nat.div_add_mod p stride
    refine ⟨p / stride, ?_, by omega⟩
    rw [Nat.lt_iff_add_one_le, Nat.le_div_iff_mul_le hpos, Nat.mul_comm, Nat.mul_add]
    omega
  · rintro ⟨j, hj, rfl⟩
    rw [Nat.lt_iff_add_one_le, Nat.le_div_iff_mul_le hpos, Nat.mul_comm, Nat.mul_add] at hj
    refine ⟨by omega, ?_⟩
    rw [Nat.mul_add_mod, Nat.mod_eq_of_lt (by omega)]

section Loops

variable {f : α → Except ε β} {xs : List α}

theorem mapM_eq_ok {ys : List β} :
    xs.mapM f = .ok ys ↔ Forall₂ (fun x y => f x = .ok y) xs ys := by
  induction xs generalizing ys with
  | nil =>
    rw [forall₂_nil_left_iff, mapM_nil]
    show Except.ok [] = Except.ok ys ↔ _
    rw [Except.ok.injEq, eq_comm]
  | cons x xs ih =>
    rw [mapM_cons]
    cases hx : f x with
    | error e =>
      constructor
      · intro h
        cases h
      · intro h
        cases h with
        | cons hy _ => cases hx.symm.trans hy
    | ok y =>
      cases hxs : xs.mapM f with
      | error e =>
        constructor
        · intro h
          cases h
        · intro h
          cases h with
          | cons _ hrest => cases hxs.symm.trans (ih.mpr hrest)
      | ok ys' =>
        constructor
        · intro h
          cases h
          exact .cons hx (ih.mp hxs)
        · intro h
          cases h with
          | cons hy hrest =>
            cases hx.symm.trans hy
            cases hxs.symm.trans (ih.mpr hrest)
            rfl

theorem exists_of_mapM_eq_error {e : ε} (h : xs.mapM f = .error e) : ∃ x ∈ xs, f x = .error e := by
  induction xs with
  | nil => cases h
  | cons x xs ih =>
    rw [mapM_cons] at h
    cases hx : f x with
    | error e' =>
      rw [hx] at h
      cases h
      exact ⟨x, mem_cons_self, hx⟩
    | ok y =>
      rw [hx] at h
      cases hxs : xs.mapM f with
      | error e' =>
        obtain ⟨x', hmem, hfail⟩ := ih (hxs.trans (by
          rw [hxs] at h
          cases h
          rfl))
        exact ⟨x', mem_cons_of_mem _ hmem, hfail⟩
      | ok ys =>
        rw [hxs] at h
        cases h

theorem mapM_eq_error {e : ε} (hone : ∀ x ∈ xs, ∀ e', f x = .error e' → e' = e)
    (h : ∃ x ∈ xs, f x = .error e) : xs.mapM f = .error e := by
  induction xs with
  | nil =>
    obtain ⟨x, hx, -⟩ := h
    cases hx
  | cons x xs ih =>
    rw [forall_mem_cons] at hone
    rw [mapM_cons]
    cases hx : f x with
    | error e' =>
      rw [hone.1 e' hx]
      rfl
    | ok y =>
      have hrest : xs.mapM f = .error e := by
        apply ih hone.2
        obtain ⟨x', hmem, hfail⟩ := h
        rcases mem_cons.mp hmem with rfl | hmem
        · cases hx.symm.trans hfail
        · exact ⟨x', hmem, hfail⟩
      rw [hrest]
      rfl

end Loops

end Strides
