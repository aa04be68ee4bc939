import Rueidis.Resp.RoundTrip

/-!
# Number lines

`readI` goes through the bytes between the sign and the last two bytes of a line in 64-bit arithmetic.
It returns the number that the line denotes, or an error, exactly for the lines where nothing of what it
does not look at is wrong: there is a digit, the line ends in CR LF, and the number is in the range.
-/

namespace Rueidis

open Int64 ByteReader

open Decimal (isDigit pushDigit readNat)

def splitMinus (line : Bytes) : Bool × Bytes :=
  if line.headD 0 = 45 then (true, line.tail) else (false, line)

def digitsOf (line : Bytes) : Bytes := (splitMinus line).2.take ((splitMinus line).2.length - 2)

def withSign (line : Bytes) (n : Nat) : Int := if (splitMinus line).1 then -(n : Int) else n

def EndsCRLF (line : Bytes) : Prop := (splitMinus line).2.drop ((splitMinus line).2.length - 2) = crlf

instance decidableEndsCRLF (line : Bytes) : Decidable (EndsCRLF line) :=
  inferInstanceAs (Decidable (_ = crlf))

/-- The integer of a line that is an optional minus sign, digits and CR LF. -/
def denotes (line : Bytes) : Option Int :=
  if EndsCRLF line then (readNat (digitsOf line)).map (withSign line) else none

def InInt64 (n : Int) : Prop := -9223372036854775808 ≤ n ∧ n < 9223372036854775808

/-- What is returned for a line is what it denotes, and a numeral out of range is an error. -/
def ReadsExactly (line : Bytes) : Prop :=
  ∀ r, (∀ v r', readI (line ++ r) = (.ok v, r') → denotes line = some v.toInt) ∧
    ∀ n, denotes line = some n → ¬ InInt64 n → ∃ e r', readI (line ++ r) = (.error e, r')

/-! ## The digit loop -/

-- the difference of two bytes is never below zero
theorem digit_iff (c : UInt8) :
    (0 ≤ ofNat (c - 48).toNat ∧ ofNat (c - 48).toNat ≤ 9) ↔ isDigit c = true := by
  have hc := c.toNat_lt
  have hsub : (c - 48).toNat = (256 - 48 + c.toNat) % 256 := UInt8.toNat_sub c 48
  have hval : (ofNat (c - 48).toNat).toInt = (c - 48).toNat :=
    toInt_ofNat_of_lt (by omega)
  rw [le_iff_toInt_le, le_iff_toInt_le, hval]
  simp only [isDigit, Decimal.zeroByte, Bool.and_eq_true, decide_eq_true_eq, UInt8.le_iff_toNat_le]
  show (0 : Int) ≤ _ ∧ _ ≤ (9 : Int) ↔ 48 ≤ c.toNat ∧ c.toNat ≤ 57
  omega

theorem accumulate_ok_iff (ds : Bytes) (n : Nat) (v : Int64) :
    accumulate (.ofNat n) ds = .ok v ↔ ds.all isDigit = true ∧ v = .ofNat (ds.foldl pushDigit n) := by
  induction ds generalizing n with
  | nil => simp [accumulate, eq_comm]
  | cons c ds ih =>
    have hpush : ofNat n * 10 + ofNat (c - 48).toNat = .ofNat (pushDigit n c) := by
      rw [pushDigit, ofNat_add, ofNat_mul]
      rfl
    unfold accumulate
    simp only [digit_iff, hpush, List.all_cons, Bool.and_eq_true, List.foldl_cons]
    by_cases hc : isDigit c = true
    · simp [hc, ih]
    · simp [hc]

theorem parseI_ok_iff (line : Bytes) (v : Int64) :
    parseI line = .ok v ↔ 3 ≤ line.length ∧ (digitsOf line).all isDigit = true ∧
      v = .ofInt (withSign line ((digitsOf line).foldl pushDigit 0)) := by
  have hloop := fun w => accumulate_ok_iff (digitsOf line) 0 w
  have hmul : ∀ n : Nat, ofNat n * (if (splitMinus line).1 then -1 else 1) =
      .ofInt (withSign line n) := by
    intro n
    unfold withSign
    split
    · rw [Int64.ofInt_neg, Int64.ofInt_eq_ofNat, Int64.mul_neg, Int64.mul_one]
    · rw [Int64.ofInt_eq_ofNat, Int64.mul_one]
  have hsign : parseI line = if line.length < 3 then .error (.new unexpectedNoCRLF)
      else if line.headD 0 = 63 then .error .errChunked
      else (accumulate 0 (digitsOf line)).map (· * if (splitMinus line).1 then -1 else 1) := by
    unfold parseI digitsOf splitMinus
    by_cases hminus : line.headD 0 = 45
    · rw [if_pos hminus, if_pos hminus]
      rfl
    · rw [if_neg hminus, if_neg hminus]
      rfl
  rw [hsign]
  by_cases hlen : line.length < 3
  · simp [hlen]
  rw [if_neg hlen]
  by_cases hmark : line.headD 0 = 63
  · -- the mark of a chunked text is no digit
    have hmem : 63 ∈ digitsOf line := by
      unfold digitsOf splitMinus
      rw [hmark, if_neg (by decide)]
      apply List.mem_of_mem_head?
      rw [List.head?_take, if_neg (by dsimp only; omega)]
      cases line with
      | nil => cases hmark
      | cons c rest => exact congrArg some hmark
    rw [if_pos hmark]
    refine ⟨nofun, fun h => ?_⟩
    have hdigit := List.all_eq_true.mp h.2.1 63 hmem
    cases hdigit
  rw [if_neg hmark]
  cases hacc : accumulate 0 (digitsOf line) with
  | error e =>
    have hbad : ¬ (digitsOf line).all isDigit = true := fun h =>
      nomatch hacc.symm.trans ((hloop _).mpr ⟨h, rfl⟩)
    simp [Except.map, hbad]
  | ok w =>
    obtain ⟨hall, rfl⟩ := (hloop w).mp hacc
    show Except.ok (ofNat _ * _) = .ok v ↔ _
    rw [hmul]
    exact ⟨fun h => ⟨Nat.not_lt.mp hlen, hall, (Except.ok.inj h).symm⟩, fun h => by rw [h.2.2]⟩

/-! ## Whole lines -/

theorem readI_of_split {r line rest : Bytes} (hsplit : splitAfter 10 r = some (line, rest)) :
    readI r = if line.length ≤ defaultReadBuffer then (parseI line, rest)
      else (.error .bufferFull, r.drop defaultReadBuffer) := by
  have hslice : readSlice ReadErr.eof .bufferFull defaultReadBuffer 10 r =
      if line.length ≤ defaultReadBuffer then (.ok line, rest)
      else (.error .bufferFull, r.drop defaultReadBuffer) := by
    unfold readSlice
    rw [hsplit]
  unfold readI
  by_cases hfits : line.length ≤ defaultReadBuffer
  · rw [if_pos hfits] at hslice ⊢
    rw [bind_ok hslice]
    cases parseI line <;> rfl
  · rw [if_neg hfits] at hslice ⊢
    exact bind_error hslice

theorem readI_line {xs : Bytes} (hline : 10 ∉ xs) (r : Bytes) :
    readI (xs ++ [10] ++ r) =
      if (xs ++ [10]).length ≤ defaultReadBuffer then (parseI (xs ++ [10]), r)
      else (.error .bufferFull, (xs ++ [10] ++ r).drop defaultReadBuffer) := by
  apply readI_of_split
  simpa using splitAfter_append 10 xs r hline

theorem toInt_ofInt_iff (n : Int) : (ofInt n).toInt = n ↔ InInt64 n := by
  rw [toInt_ofInt, InInt64, Int.bmod_def]
  show (if n % 2 ^ 64 < (2 ^ 64 + 1) / 2 then n % 2 ^ 64 else n % 2 ^ 64 - 2 ^ 64) = n ↔ _
  omega

/-- A line is read exactly when it is too long, refused, or a numeral of the 64-bit range that ends
in CR LF. -/
theorem readI_exact_iff (xs : Bytes) (hline : 10 ∉ xs) :
    ReadsExactly (xs ++ [10]) ↔
      ((xs ++ [10]).length ≤ defaultReadBuffer → 3 ≤ (xs ++ [10]).length →
        (digitsOf (xs ++ [10])).all isDigit = true →
        digitsOf (xs ++ [10]) ≠ [] ∧ EndsCRLF (xs ++ [10]) ∧
          InInt64 (withSign (xs ++ [10]) ((digitsOf (xs ++ [10])).foldl pushDigit 0))) := by
  have hread := readI_line hline
  generalize xs ++ [10] = line at hread ⊢
  have hnat : ∀ n, denotes line = some n ↔ EndsCRLF line ∧ digitsOf line ≠ [] ∧
      (digitsOf line).all isDigit = true ∧ withSign line ((digitsOf line).foldl pushDigit 0) = n := by
    intro n
    unfold denotes readNat
    by_cases hend : EndsCRLF line <;> by_cases hnil : digitsOf line = [] <;>
      by_cases hall : (digitsOf line).all isDigit = true <;> simp [hend, hnil, hall]
  constructor
  · intro h hfits hlen hall
    have hok :=
      (h []).1 _ [] (by rw [hread, if_pos hfits, (parseI_ok_iff line _).mpr ⟨hlen, hall, rfl⟩])
    obtain ⟨hend, hnil, -, hval⟩ := (hnat _).mp hok
    exact ⟨hnil, hend, (toInt_ofInt_iff _).mp hval.symm⟩
  · intro h r
    constructor
    · intro v r' hv
      rw [hread] at hv
      split at hv
      next hfits =>
        obtain ⟨hlen, hall, rfl⟩ := (parseI_ok_iff line v).mp (congrArg Prod.fst hv)
        obtain ⟨hnil, hend, hrange⟩ := h hfits hlen hall
        exact (hnat _).mpr ⟨hend, hnil, hall, ((toInt_ofInt_iff _).mpr hrange).symm⟩
      · cases hv
    · intro n hn hrange
      obtain ⟨hend, hnil, hall, rfl⟩ := (hnat n).mp hn
      rw [hread]
      split
      next hfits =>
        cases hparse : parseI line with
        | error e => exact ⟨e, r, rfl⟩
        | ok v =>
          obtain ⟨hlen, -, -⟩ := (parseI_ok_iff line v).mp hparse
          exact absurd (h hfits hlen hall).2.2 hrange
      · exact ⟨_, _, rfl⟩

theorem readI_exact_iff_min : ReadsExactly (lit "-9223372036854775808\r\n") :=
  (readI_exact_iff (lit "-9223372036854775808\r") (by decide)).mpr
    fun _ _ _ => ⟨by decide, by decide, by decide, by decide⟩

/-- One more than the largest number is read as the least one, a minus sign alone as zero, and what
stands before the end of the line is not looked at. -/
theorem readI_wraps :
    readI (lit "9223372036854775808\r\n") = (.ok (-9223372036854775808), []) ∧
      ¬ ReadsExactly (lit "9223372036854775808\r\n") ∧
      readI (lit "-\r\n") = (.ok 0, []) ∧ denotes (lit "-\r\n") = none ∧
      readI (lit "12x\n") = (.ok 12, []) ∧ denotes (lit "12x\n") = none := by
  have hread : readI (lit "9223372036854775808\r\n") = (.ok (-9223372036854775808), []) := by
    decide +kernel
  refine ⟨hread, fun h => ?_, by decide +kernel⟩
  have hdenotes := (h []).1 _ _ hread
  revert hdenotes
  decide

end Rueidis
