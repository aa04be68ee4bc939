import Mathlib.Algebra.Ring.Nat
import Mathlib.Data.List.Basic

/-! Numbers as bytes, in a fixed number of them, the lowest or the highest one first. -/

namespace ByteOrder

def putLE : (n x : Nat) → List UInt8
  | 0, _ => []
  | n + 1, x => UInt8.ofNat (x % 256) :: putLE n (x / 256)

def getLE : List UInt8 → Nat
  | [] => 0
  | b :: bs => b.toNat + 256 * getLE bs

@[simp] theorem length_putLE (n x : Nat) : (putLE n x).length = n := by
  induction n generalizing x with
  | zero => rfl
  | succ n ih => rw [putLE, List.length_cons, ih]

theorem getLE_putLE {n x : Nat} (h : x < 256 ^ n) : getLE (putLE n x) = x := by
  induction n generalizing x with
  | zero =>
    rw [Nat.pow_zero] at h
    rw [putLE, getLE]
    omega
  | succ n ih =>
    have hdiv : x / 256 < 256 ^ n := by
      apply Nat.div_lt_of_lt_mul
      rwa [Nat.pow_succ, Nat.mul_comm] at h
    have hbyte : (UInt8.ofNat (x % 256)).toNat = x % 256 :=
      UInt8.toNat_ofNat_of_lt' (Nat.mod_lt x (by decide))
    rw [putLE, getLE, ih hdiv, hbyte]
    omega

def putBE (n x : Nat) : List UInt8 := (putLE n x).reverse

def getBE (bs : List UInt8) : Nat := getLE bs.reverse

@[simp] theorem length_putBE (n x : Nat) : (putBE n x).length = n := by
  rw [putBE, List.length_reverse, length_putLE]

theorem getBE_putBE {n x : Nat} (h : x < 256 ^ n) : getBE (putBE n x) = x := by
  rw [getBE, putBE, List.reverse_reverse, getLE_putLE h]

end ByteOrder
