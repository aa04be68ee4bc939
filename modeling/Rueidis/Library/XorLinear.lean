import Mathlib.Data.List.Basic

/-!
Maps of words that are linear in exclusive or.

Such a map is known from its values at the single bits, so two of them are compared at as many words
as the width has bits.
-/

namespace XorLinear

variable {v w : Nat} {f g : BitVec w → BitVec v}

def taken (p : BitVec w) (bit : Bool) : BitVec w := if bit then p else 0#w

theorem taken_xor (p : BitVec w) (a b : Bool) : taken p (a ^^ b) = taken p a ^^^ taken p b := by
  cases a <;> cases b <;> simp [taken]

def Linear (f : BitVec w → BitVec v) : Prop := ∀ x y, f (x ^^^ y) = f x ^^^ f y

theorem Linear.zero (hf : Linear f) : f 0#w = 0#v := by
  have h := hf 0#w 0#w
  rwa [BitVec.xor_self, BitVec.xor_self] at h

theorem Linear.comp {u : Nat} {g : BitVec v → BitVec u} (hg : Linear g) (hf : Linear f) :
    Linear fun x => g (f x) := by
  intro x y
  dsimp only
  rw [hf, hg]

theorem Linear.xor (hf : Linear f) (hg : Linear g) : Linear fun x => f x ^^^ g x := by
  intro x y
  dsimp only
  rw [hf, hg]
  ac_rfl

theorem linear_id : Linear fun x : BitVec w => x := fun _ _ => rfl

theorem linear_taken (p : BitVec v) (i : Nat) : Linear fun x : BitVec w => taken p (x.getLsbD i) := by
  intro x y
  dsimp only
  rw [BitVec.getLsbD_xor, taken_xor]

theorem linear_and (m : BitVec w) : Linear fun x => x &&& m := by
  intro x y
  apply BitVec.eq_of_getLsbD_eq
  intro i _
  rw [BitVec.getLsbD_and, BitVec.getLsbD_xor, BitVec.getLsbD_xor, BitVec.getLsbD_and,
    BitVec.getLsbD_and, Bool.and_xor_distrib_right]

def combine : List (BitVec v) → BitVec w → BitVec v
  | [], _ => 0#v
  | r :: rs, x => taken r (x.getLsbD 0) ^^^ combine rs (x >>> 1)

theorem linear_combine (rows : List (BitVec v)) : Linear (combine rows : BitVec w → BitVec v) := by
  induction rows with
  | nil =>
    intro x y
    exact (BitVec.xor_self).symm
  | cons r rs ih =>
    intro x y
    rw [combine, combine, combine, BitVec.getLsbD_xor, taken_xor, BitVec.ushiftRight_xor_distrib, ih]
    ac_rfl

theorem Linear.ext (hf : Linear f) (hg : Linear g)
    (h : ∀ i < w, f (BitVec.twoPow w i) = g (BitVec.twoPow w i)) (x : BitVec w) : f x = g x := by
  -- a word with bits below `n` only: the bit `n - 1` is taken off
  suffices hlow : ∀ n ≤ w, ∀ x : BitVec w, (∀ i, n ≤ i → x.getLsbD i = false) → f x = g x from
    hlow w (Nat.le_refl w) x fun i hi => BitVec.getLsbD_of_ge x i hi
  intro n
  induction n with
  | zero =>
    intro _ x hx
    have hzero : x = 0#w := by
      apply BitVec.eq_of_getLsbD_eq
      intro i _
      rw [hx i (Nat.zero_le i), BitVec.getLsbD_zero]
    rw [hzero, hf.zero, hg.zero]
  | succ n ih =>
    intro hn x hx
    cases hbit : x.getLsbD n with
    | false =>
      apply ih (Nat.le_of_succ_le hn) x
      intro i hi
      rcases Nat.eq_or_lt_of_le hi with rfl | hlt
      · exact hbit
      · exact hx i hlt
    | true =>
      have hsplit : x = x ^^^ BitVec.twoPow w n ^^^ BitVec.twoPow w n := by
        rw [BitVec.xor_assoc, BitVec.xor_self, BitVec.xor_zero]
      have hrest : f (x ^^^ BitVec.twoPow w n) = g (x ^^^ BitVec.twoPow w n) := by
        apply ih (Nat.le_of_succ_le hn)
        intro i hi
        rw [BitVec.getLsbD_xor, BitVec.getLsbD_twoPow, decide_eq_true (show n < w from hn),
          Bool.true_and]
        rcases Nat.eq_or_lt_of_le hi with rfl | hlt
        · rw [hbit, decide_eq_true rfl, Bool.xor_self]
        · rw [hx i hlt, decide_eq_false (Nat.ne_of_lt hlt), Bool.xor_self]
      rw [hsplit, hf, hg, hrest, h n hn]

end XorLinear
