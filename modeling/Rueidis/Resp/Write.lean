import Rueidis.Resp.RoundTrip

/-!
# Writing a command

The bytes `writeCmd` hands to the connection.  The lengths are written from the top digit down,
starting at a power of ten that comes from floating point functions of the standard library.
-/

namespace Rueidis

open List Wire

open Decimal (numeral digitByte zeroByte)

/-- The functions of Go's `math` package on the lengths that occur: `log10 n` is
`int(math.Log10(float64(n)))` and `pow10 k` is `int(math.Pow10(k))`. -/
structure FloatMath where
  log10 : Nat → Nat
  pow10 : Nat → Nat

/-- The digits of `n` from the one that counts `d` on. -/
def writeDigits (n d : Nat) : Bytes :=
  if d = 0 then [] else (zeroByte + (n / d).toUInt8) :: writeDigits (n % d) (d / 10)
termination_by d
decreasing_by omega

def writeN (math : FloatMath) (id : UInt8) (n : Nat) : Bytes :=
  let digits :=
    if n < 10 then [zeroByte + n.toUInt8] else writeDigits n (math.pow10 (math.log10 n))
  id :: (digits ++ crlf)

def writeB (math : FloatMath) (id : UInt8) (str : Bytes) : Bytes :=
  writeN math id str.length ++ str ++ crlf

def writeCmd (math : FloatMath) (cmd : List Bytes) : Bytes :=
  writeN math typeArray cmd.length ++ cmd.flatMap (writeB math typeBlobString)

/-! ## The digit loop -/

theorem writeDigits_one (n : Nat) : writeDigits n 1 = [digitByte n] := by
  rw [writeDigits, if_neg (by decide), Nat.div_one, Nat.mod_one, writeDigits, if_pos (by decide)]
  rfl

theorem writeDigits_pow_succ (n k : Nat) :
    writeDigits n (10 ^ (k + 1)) =
      digitByte (n / 10 ^ (k + 1)) :: writeDigits (n % 10 ^ (k + 1)) (10 ^ k) := by
  have hdiv : 10 ^ (k + 1) / 10 = 10 ^ k := by
    rw [Nat.pow_succ]
    omega
  rw [writeDigits, if_neg (by positivity), hdiv]
  rfl

/-- The loop seen from its last digit: what it writes before that are the digits of `n / 10`. -/
theorem writeDigits_pow_append (n k : Nat) :
    writeDigits n (10 ^ (k + 1)) = writeDigits (n / 10) (10 ^ k) ++ [digitByte (n % 10)] := by
  induction k generalizing n with
  | zero =>
    rw [writeDigits_pow_succ]
    show digitByte (n / 10) :: writeDigits (n % 10) 1 = writeDigits (n / 10) 1 ++ _
    rw [writeDigits_one, writeDigits_one]
    rfl
  | succ k ih =>
    -- the digits between the first and the last one are those of the middle part of `n`
    have hfirst : n / 10 ^ (k + 2) = n / 10 / 10 ^ (k + 1) := by
      rw [Nat.div_div_eq_div_mul, ← Nat.pow_succ']
    have hmiddle : n % 10 ^ (k + 2) / 10 = n / 10 % 10 ^ (k + 1) := by
      rw [Nat.pow_succ' (n := k + 1), Nat.mod_mul_right_div_self]
    have hlast : n % 10 ^ (k + 2) % 10 = n % 10 := by
      apply Nat.mod_mod_of_dvd
      exact Dvd.intro_left (10 ^ (k + 1)) rfl
    rw [writeDigits_pow_succ n (k + 1), ih, hmiddle, hlast, hfirst,
      writeDigits_pow_succ (n / 10) k]
    rfl

theorem writeDigits_eq_numeral {n k : Nat} (hlow : 10 ^ k ≤ n) (hhigh : n < 10 ^ (k + 1)) :
    writeDigits n (10 ^ k) = numeral n := by
  induction k generalizing n with
  | zero =>
    show writeDigits n 1 = numeral n
    rw [writeDigits_one, Decimal.numeral_of_lt_ten (by omega)]
  | succ k ih =>
    rw [Nat.pow_succ] at hlow hhigh
    have hpos : 0 < 10 ^ k := by positivity
    rw [writeDigits_pow_append, ih (by omega) (by omega),
      Decimal.numeral_of_ten_le (n := n) (by omega)]

/-! ## Lengths, words and commands -/

/-- The functions give the top power of ten of `n`. -/
def FloatMath.ExactAt (math : FloatMath) (n : Nat) : Prop :=
  10 ≤ n → math.pow10 (math.log10 n) = 10 ^ Nat.log 10 n

theorem writeN_eq {math : FloatMath} {n : Nat} (hmath : math.ExactAt n) (id : UInt8) :
    writeN math id n = id :: (numeral n ++ crlf) := by
  unfold writeN
  by_cases hn : n < 10
  · rw [if_pos hn, Decimal.numeral_of_lt_ten hn]
    rfl
  · have hlow : 10 ^ Nat.log 10 n ≤ n := Nat.pow_log_le_self 10 (by omega)
    have hhigh : n < 10 ^ (Nat.log 10 n + 1) := Nat.lt_pow_succ_log_self (by decide) n
    rw [if_neg hn, hmath (by omega), writeDigits_eq_numeral hlow hhigh]

def blobString (str : Bytes) : RedisMessage :=
  { ({} : RedisMessage).setString str with typ := typeBlobString }

def wordsWire (cmd : List Bytes) (h : ∀ w ∈ cmd, w.length ≤ maxAlloc) : List Wire :=
  cmd.pmap (fun w hw => .blob .blobString ⟨w, hw⟩) h

theorem length_wordsWire (cmd : List Bytes) (h : ∀ w ∈ cmd, w.length ≤ maxAlloc) :
    (wordsWire cmd h).length = cmd.length := length_pmap

theorem validElems_wordsWire (cmd : List Bytes) (h : ∀ w ∈ cmd, w.length ≤ maxAlloc) :
    Wire.ValidElems (wordsWire cmd h) := by
  rw [validElems_iff]
  intro e he
  obtain ⟨w, hw, rfl⟩ := mem_pmap.mp he
  simp only [Wire.Valid]

theorem messages_wordsWire (cmd : List Bytes) (h : ∀ w ∈ cmd, w.length ≤ maxAlloc) :
    messages (wordsWire cmd h) = cmd.map blobString := by
  rw [messages_eq_map]
  unfold wordsWire
  rw [map_pmap, ← pmap_eq_map (p := fun w => w.length ≤ maxAlloc) (H := h)]
  rfl

theorem encode_wordsWire {math : FloatMath} {cmd : List Bytes}
    (h : ∀ w ∈ cmd, w.length ≤ maxAlloc) (hmath : ∀ w ∈ cmd, math.ExactAt w.length) :
    encodeElems (wordsWire cmd h) = cmd.flatMap (writeB math typeBlobString) := by
  have hword : ∀ w ∈ cmd, writeB math typeBlobString w =
      typeBlobString :: (numeral w.length ++ crlf ++ w ++ crlf) := by
    intro w hw
    unfold writeB
    rw [writeN_eq (hmath w hw)]
    rfl
  rw [encodeElems_eq_flatMap, flatMap_congr hword, flatMap_def, flatMap_def]
  unfold wordsWire
  rw [map_pmap, ← pmap_eq_map (p := fun w => w.length ≤ maxAlloc) (H := h)]
  simp only [encode, BlobKind.typ]

/-- The server reads back exactly the words of a written command, whatever follows it: as blob
strings, so their bytes are free. -/
theorem readNextMessage_writeCmd (math : FloatMath) (cmd : List Bytes) (rest : Bytes)
    (hcount : cmd.length ≤ maxMessages) (hwords : ∀ w ∈ cmd, w.length ≤ maxAlloc)
    (hlog : ∀ n ∈ cmd.length :: cmd.map List.length, 10 ≤ n → math.log10 n = Nat.log 10 n)
    (hpow : ∀ n ∈ cmd.length :: cmd.map List.length, 10 ≤ n →
      math.pow10 (Nat.log 10 n) = 10 ^ Nat.log 10 n) :
    readNextMessage (writeCmd math cmd ++ rest) =
      (.ok { ({} : RedisMessage).setValues (cmd.map blobString) with typ := typeArray }, rest) := by
  have hexact : ∀ n ∈ cmd.length :: cmd.map length, math.ExactAt n := by
    intro n hn hten
    rw [hlog n hn hten, hpow n hn hten]
  have hmath : ∀ w ∈ cmd, math.ExactAt w.length := by
    intro w hw
    apply hexact
    exact mem_cons_of_mem _ (mem_map_of_mem hw)
  apply readNextMessage_of_encodes
  refine ⟨.aggregate .array false (wordsWire cmd hwords), ?_, ?_, ?_⟩
  · rw [Wire.Valid, length_wordsWire]
    exact ⟨hcount, nofun, validElems_wordsWire cmd hwords⟩
  · unfold writeCmd
    rw [encode, encode_wordsWire hwords hmath, writeN_eq (hexact _ mem_cons_self),
      length_wordsWire]
    simp [header, trailer, elemCount, AggregateKind.isMap, AggregateKind.typ]
  · rw [message, messageWith, messages_wordsWire]
    rfl

theorem readNextMessage_writeCmd_set :
    readNextMessage (writeCmd ⟨Nat.log 10, (10 ^ ·)⟩
        [lit "SET", [13, 10, 0], [], lit "0123456789"] ++ lit "*1") =
      (.ok { typ := typeArray, intlen := 4, array := some [
              blobString (lit "SET"), blobString [13, 10, 0], blobString [],
              blobString (lit "0123456789")] },
        lit "*1") :=
  readNextMessage_writeCmd ⟨Nat.log 10, (10 ^ ·)⟩ _ _ (by decide) (by decide)
    (fun _ _ _ => rfl) (fun _ _ _ => rfl)

end Rueidis
