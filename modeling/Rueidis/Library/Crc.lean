import Rueidis.Library.XorLinear

/-!
Cyclic redundancy checks, a bit at a time and a byte at a time.

The register is a word of any width and the polynomial `p` is given without its leading term. Feeding
a bit is linear in the register and the bit together; feeding a register its own leading bits only
shifts it.  So the step by a table of the 256 remainders of the bytes is eight bits.
-/

namespace Crc

open XorLinear List

variable {w : Nat}

/-- One bit of the message: the leading bit of the register and the bit decide whether the
polynomial is taken off. -/
def feed (p crc : BitVec w) (bit : Bool) : BitVec w := (crc <<< 1) ^^^ taken p (crc.msb ^^ bit)

def remainder (p crc : BitVec w) (bits : List Bool) : BitVec w := bits.foldl (feed p) crc

@[simp] theorem remainder_nil (p crc : BitVec w) : remainder p crc [] = crc := rfl

@[simp] theorem remainder_cons (p crc : BitVec w) (b : Bool) (bs : List Bool) :
    remainder p crc (b :: bs) = remainder p (feed p crc b) bs := rfl

theorem remainder_append (p crc : BitVec w) (xs ys : List Bool) :
    remainder p crc (xs ++ ys) = remainder p (remainder p crc xs) ys := by
  rw [remainder, foldl_append]
  rfl

/-! ## Linearity -/

theorem feed_xor (p c d : BitVec w) (a b : Bool) :
    feed p (c ^^^ d) (a ^^ b) = feed p c a ^^^ feed p d b := by
  have hbit : ((c ^^^ d).msb ^^ (a ^^ b)) = ((c.msb ^^ a) ^^ (d.msb ^^ b)) := by
    rw [BitVec.msb_xor, Bool.xor_assoc, Bool.xor_assoc, Bool.xor_left_comm d.msb]
  rw [feed, feed, feed, BitVec.shiftLeft_xor_distrib, hbit, taken_xor]
  ac_rfl

theorem remainder_xor (p c d : BitVec w) {xs ys : List Bool} (h : xs.length = ys.length) :
    remainder p (c ^^^ d) (zipWith xor xs ys) = remainder p c xs ^^^ remainder p d ys := by
  induction xs generalizing c d ys with
  | nil =>
    rw [length_nil, eq_comm, length_eq_zero_iff] at h
    rw [h]
    rfl
  | cons x xs ih =>
    cases ys with
    | nil => cases h
    | cons y ys =>
      rw [zipWith_cons_cons, remainder_cons, remainder_cons, remainder_cons, feed_xor]
      exact ih _ _ (Nat.succ.inj h)

theorem zipWith_xor_false (xs : List Bool) :
    zipWith xor (replicate xs.length false) xs = xs := by
  induction xs with
  | nil => rfl
  | cons x xs ih =>
    rw [length_cons, replicate_succ, zipWith_cons_cons, ih, Bool.false_xor]

theorem linear_remainder (p : BitVec w) (n : Nat) :
    Linear fun crc => remainder p crc (replicate n false) := by
  intro c d
  have hzip : zipWith xor (replicate n false) (replicate n false) =
      replicate n false := by
    have hsame := zipWith_xor_false (replicate n false)
    rwa [length_replicate] at hsame
  rw [← remainder_xor p c d rfl, hzip]

theorem remainder_eq_xor (p crc : BitVec w) (bits : List Bool) :
    remainder p crc bits =
      remainder p crc (replicate bits.length false) ^^^ remainder p 0#w bits := by
  rw [← remainder_xor p crc 0#w length_replicate, zipWith_xor_false, BitVec.xor_zero]

/-! ## The register's own leading bits -/

theorem feed_msb (p crc : BitVec w) : feed p crc crc.msb = crc <<< 1 := by
  rw [feed, Bool.xor_self, taken, if_neg Bool.false_ne_true, BitVec.xor_zero]

def leading (n : Nat) (x : BitVec w) : List Bool := (List.range n).map x.getMsbD

@[simp] theorem length_leading (n : Nat) (x : BitVec w) : (leading n x).length = n := by
  rw [leading, length_map, length_range]

theorem leading_succ (n : Nat) (x : BitVec w) :
    leading (n + 1) x = x.msb :: leading n (x <<< 1) := by
  rw [leading, range_succ_eq_map, map_cons, map_map, leading]
  congr 1
  apply map_congr_left
  intro i hi
  rw [mem_range] at hi
  rw [BitVec.getMsbD_shiftLeft, Function.comp, Nat.succ_eq_add_one]

theorem leading_xor (n : Nat) (x y : BitVec w) :
    leading n (x ^^^ y) = zipWith xor (leading n x) (leading n y) := by
  rw [leading, leading, leading, zipWith_map, zipWith_self]
  apply map_congr_left
  intro i _
  exact BitVec.getMsbD_xor

theorem remainder_leading (p crc : BitVec w) (n : Nat) :
    remainder p crc (leading n crc) = crc <<< n := by
  induction n generalizing crc with
  | zero => simp [leading]
  | succ n ih =>
    rw [leading_succ, remainder_cons, feed_msb, ih, ← BitVec.shiftLeft_add, Nat.add_comm]

/-- A group of bits at once: the register is shifted past the group, and what its own leading bits
and the group differ in is looked up as the remainder of that difference. -/
theorem remainder_of_leading (p crc : BitVec w) {n : Nat} {bits : List Bool}
    (hbits : bits.length = n) :
    remainder p crc bits =
      (crc <<< n) ^^^ remainder p 0#w (zipWith xor (leading n crc) bits) := by
  have hlen : (leading n crc).length = (zipWith xor (leading n crc) bits).length := by
    rw [length_zipWith, length_leading, hbits, Nat.min_self]
  have hback : zipWith xor (leading n crc) (zipWith xor (leading n crc) bits) = bits := by
    apply ext_getElem
    · rw [length_zipWith, ← hlen, length_leading, Nat.min_self, hbits]
    · intro i _ _
      rw [getElem_zipWith, getElem_zipWith, ← Bool.xor_assoc, Bool.xor_self,
        Bool.false_xor]
  calc remainder p crc bits
      = remainder p (crc ^^^ 0#w)
          (zipWith xor (leading n crc) (zipWith xor (leading n crc) bits)) := by
        rw [hback, BitVec.xor_zero]
    _ = (crc <<< n) ^^^ remainder p 0#w (zipWith xor (leading n crc) bits) := by
        rw [remainder_xor p crc 0#w hlen, remainder_leading]

end Crc
