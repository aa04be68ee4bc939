import Mathlib.Data.Nat.Digits.Lemmas

/-! Decimal numerals as ASCII bytes: the canonical numeral of a number, and reading one back. -/

namespace Decimal

open List

variable {n d : Nat} {b : UInt8}

def zeroByte : UInt8 := 48

def digitByte (d : Nat) : UInt8 := zeroByte + d.toUInt8

def numeral (n : Nat) : List UInt8 :=
  if n = 0 then [zeroByte] else ((Nat.digits 10 n).reverse).map digitByte

def numeralInt (i : Int) : List UInt8 :=
  if i < 0 then 45 :: numeral i.natAbs else numeral i.natAbs

def pushDigit (v : Nat) (b : UInt8) : Nat := v * 10 + (b - zeroByte).toNat

theorem digitByte_sub (hd : d < 10) : (digitByte d - zeroByte).toNat = d := by
  interval_cases d <;> rfl

theorem digitByte_ne_newline (hd : d < 10) : digitByte d ≠ 10 := by
  interval_cases d <;> decide

theorem mem_numeral (hb : b ∈ numeral n) : ∃ d < 10, b = digitByte d := by
  unfold numeral at hb
  split at hb
  · exact ⟨0, by decide, by simpa [digitByte] using hb⟩
  · obtain ⟨d, hd, rfl⟩ := mem_map.mp hb
    exact ⟨d, Nat.digits_lt_base (by decide) (mem_reverse.mp hd), rfl⟩

theorem numeral_ne_nil (n : Nat) : numeral n ≠ [] := by
  unfold numeral
  split
  · simp
  · simpa [Nat.digits_ne_nil_iff_ne_zero] using ‹¬ n = 0›

theorem foldl_pushDigit_map (ds : List Nat) (v : Nat) (hd : ∀ d ∈ ds, d < 10) :
    (ds.map digitByte).foldl pushDigit v = ds.foldl (fun v d => v * 10 + d) v := by
  induction ds generalizing v with
  | nil => rfl
  | cons d ds ih =>
    have hlt : d < 10 := hd d (by simp)
    rw [map_cons, foldl_cons, foldl_cons, pushDigit, digitByte_sub hlt]
    exact ih _ (fun e he => hd e (by simp [he]))

theorem foldl_numeral (n : Nat) : (numeral n).foldl pushDigit 0 = n := by
  unfold numeral
  split
  · rename_i h
    subst h
    rfl
  · rw [foldl_pushDigit_map _ _ (fun d hd =>
      Nat.digits_lt_base (by decide) (mem_reverse.mp hd)), foldl_reverse]
    have h := Nat.ofDigits_eq_foldr 10 (Nat.digits 10 n)
    rw [Nat.ofDigits_digits] at h
    simpa [Nat.mul_comm, Nat.add_comm] using h.symm

theorem numeral_of_lt_ten (hn : n < 10) : numeral n = [digitByte n] := by
  unfold numeral
  by_cases h : n = 0
  · rw [if_pos h, h]
    rfl
  · rw [if_neg h, Nat.digits_of_lt 10 n h hn]
    rfl

theorem numeral_of_ten_le (hn : 10 ≤ n) : numeral n = numeral (n / 10) ++ [digitByte (n % 10)] := by
  have hne : n ≠ 0 := by omega
  have hdiv : n / 10 ≠ 0 := by omega
  unfold numeral
  rw [if_neg hne, if_neg hdiv, Nat.digits_def' (by decide) (by omega), reverse_cons,
    map_append]
  rfl

theorem numeral_length_le {k : Nat} (hk : 0 < k) (hn : n < 10 ^ k) : (numeral n).length ≤ k := by
  unfold numeral
  split
  · rw [length_singleton]
    omega
  · simpa using (Nat.digits_length_le_iff (by decide) n).mpr hn

/-! ## Reading numerals -/

def isDigit (b : UInt8) : Bool := decide (zeroByte ≤ b) && decide (b ≤ 57)

def readNat (text : List UInt8) : Option Nat :=
  if text = [] then none
  else if text.all isDigit then some (text.foldl pushDigit 0) else none

def splitSign : List UInt8 → Bool × List UInt8
  | 45 :: text => (true, text)
  | 43 :: text => (false, text)
  | text => (false, text)

def readInt (text : List UInt8) : Option Int :=
  (readNat (splitSign text).2).map fun n => if (splitSign text).1 then -(n : Int) else n

theorem isDigit_digitByte (hd : d < 10) : isDigit (digitByte d) = true := by
  interval_cases d <;> decide

theorem isDigit_of_mem_numeral (hb : b ∈ numeral n) : isDigit b = true := by
  obtain ⟨d, hd, rfl⟩ := mem_numeral hb
  exact isDigit_digitByte hd

theorem readNat_numeral (n : Nat) : readNat (numeral n) = some n := by
  rw [readNat, if_neg (numeral_ne_nil n), if_pos, foldl_numeral]
  rw [all_eq_true]
  intro b hb
  exact isDigit_of_mem_numeral hb

theorem splitSign_numeral (n : Nat) : splitSign (numeral n) = (false, numeral n) := by
  have hdigit : ∀ b ∈ numeral n, isDigit b = true := fun b hb => isDigit_of_mem_numeral hb
  unfold splitSign
  split
  · rename_i heq
    rw [heq] at hdigit
    exact absurd (hdigit 45 mem_cons_self) (by decide)
  · rename_i heq
    rw [heq] at hdigit
    exact absurd (hdigit 43 mem_cons_self) (by decide)
  · rfl

theorem readInt_numeral (n : Nat) : readInt (numeral n) = some (n : Int) := by
  rw [readInt, splitSign_numeral, readNat_numeral]
  rfl

theorem readInt_numeralInt (i : Int) : readInt (numeralInt i) = some i := by
  rw [numeralInt]
  split
  · rw [readInt, show splitSign (45 :: numeral i.natAbs) = (true, numeral i.natAbs) from rfl,
      readNat_numeral]
    exact congrArg some (show -(i.natAbs : Int) = i by omega)
  · rw [readInt_numeral]
    exact congrArg some (by omega)

theorem readInt_eq_none {text : List UInt8} (hb : b ∈ text) (hdigit : isDigit b = false)
    (hminus : b ≠ 45) (hplus : b ≠ 43) : readInt text = none := by
  have hmem : b ∈ (splitSign text).2 := by
    unfold splitSign
    split
    · exact (mem_cons.mp hb).resolve_left hminus
    · exact (mem_cons.mp hb).resolve_left hplus
    · exact hb
  have hall : ¬ (splitSign text).2.all isDigit = true := fun h => by
    simpa [hdigit] using all_eq_true.mp h b hmem
  rw [readInt, readNat, if_neg (ne_nil_of_mem hmem), if_neg hall]
  rfl

/-! ## A fixed number of significant digits -/

def halfEven (n d : Nat) : Nat :=
  let q := n / d
  if d < 2 * (n % d) ∨ (d = 2 * (n % d) ∧ q % 2 = 1) then q + 1 else q

/-- An integer as printed with at most `p` significant digits: larger ones are rounded and printed
with an exponent of at least two digits. -/
def general (p n : Nat) : List UInt8 :=
  if n < 10 ^ p then numeral n
  else
    let x := (numeral n).length - 1
    let m := halfEven n (10 ^ (x + 1 - p))
    let (m, x) := if m = 10 ^ p then (10 ^ (p - 1), x + 1) else (m, x)
    let digits := ((numeral m).reverse.dropWhile (· == zeroByte)).reverse
    let mantissa := match digits with
      | d :: rest => if rest = [] then [d] else d :: 46 :: rest
      | [] => []
    mantissa ++ [101, 43] ++ (if x < 10 then zeroByte :: numeral x else numeral x)

theorem general_of_lt {p : Nat} (h : n < 10 ^ p) : general p n = numeral n := if_pos h

theorem exponent_mem_general {p : Nat} (h : 10 ^ p ≤ n) : 101 ∈ general p n := by
  rw [general, if_neg (by omega)]
  simp

end Decimal
