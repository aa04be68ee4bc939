import Rueidis.Resp.Wire

/-!
# Reading a wire form back

`readNextMessage` on the bytes of any wire form returns the message it stands for and leaves the
bytes behind it unread.
-/

namespace Rueidis

open List Int64 ByteReader Decimal

open Decimal (numeral numeralInt digitByte pushDigit)
open Wire (encode encodeElems messageWith messages Valid ValidElems)
open ByteReader (bind_ok bind_error attempt_bind)

/-! ## Number lines -/

variable {n fuel : Nat} {isMap : Bool} {r r' : Bytes} {ms : List RedisMessage}

theorem accumulate_digits (ds : Bytes) (v : Nat) (hd : ∀ b ∈ ds, ∃ d < 10, b = digitByte d) :
    accumulate (ofNat v) ds = .ok (ofNat (ds.foldl pushDigit v)) := by
  induction ds generalizing v with
  | nil => rfl
  | cons b ds ih =>
    obtain ⟨d, hlt, rfl⟩ := hd b (by simp)
    have hsub : (digitByte d - 48).toNat = d := digitByte_sub hlt
    have hrange : 0 ≤ ofNat d ∧ ofNat d ≤ 9 := by
      interval_cases d <;> decide
    have hpush : ofNat v * 10 + ofNat d = ofNat (pushDigit v (digitByte d)) := by
      rw [pushDigit, digitByte_sub hlt, ofNat_add, ofNat_mul]
      rfl
    unfold accumulate
    rw [hsub, if_pos hrange, hpush]
    exact ih _ (fun c hc => hd c (by simp [hc]))

theorem accumulate_numeral (n : Nat) : accumulate 0 (numeral n) = .ok (ofNat n) := by
  have h := accumulate_digits (numeral n) 0 (fun b hb => mem_numeral hb)
  rwa [foldl_numeral] at h

/-- A numeral starts with a digit, so neither with `?` nor with a minus sign. -/
theorem numeral_head (n : Nat) : ∃ d < 10, ∃ ds, numeral n = digitByte d :: ds := by
  match h : numeral n with
  | [] => exact absurd h (numeral_ne_nil n)
  | b :: ds =>
    obtain ⟨d, hlt, rfl⟩ := mem_numeral (n := n) (b := b) (by rw [h]; simp)
    exact ⟨d, hlt, ds, rfl⟩

theorem digitByte_ne_mark {d : Nat} (hd : d < 10) : digitByte d ≠ 63 ∧ digitByte d ≠ 45 := by
  interval_cases d <;> decide

theorem parseI_numeral (n : Nat) : parseI (numeral n ++ crlf) = .ok (ofNat n) := by
  obtain ⟨d, hlt, ds, hds⟩ := numeral_head n
  obtain ⟨hq, hm⟩ := digitByte_ne_mark hlt
  have hlen : ¬ (numeral n ++ crlf).length < 3 := by simp [hds, crlf]
  have hhead : (numeral n ++ crlf).headD 0 = digitByte d := by simp [hds]
  have htake : (numeral n ++ crlf).take ((numeral n ++ crlf).length - 2) = numeral n := by
    simp [crlf]
  unfold parseI
  rw [if_neg hlen, hhead, if_neg hq, if_neg hm, htake, accumulate_numeral]
  simp [Except.map]

theorem parseI_neg_numeral (n : Nat) :
    parseI (45 :: numeral n ++ crlf) = .ok (ofInt (-(n : Int))) := by
  obtain ⟨d, hlt, ds, hds⟩ := numeral_head n
  have hlen : ¬ (45 :: numeral n ++ crlf).length < 3 := by simp [hds, crlf]
  have htake : (numeral n ++ crlf).take ((numeral n ++ crlf).length - 2) = numeral n := by
    simp [crlf]
  unfold parseI
  rw [if_neg hlen, cons_append, headD_cons, if_neg (by decide), if_pos rfl,
    tail_cons, htake, accumulate_numeral]
  rw [Int64.ofInt_neg, Int64.ofInt_eq_ofNat, ← Int64.mul_one (Int64.ofNat n), ← Int64.mul_neg,
    mul_one]
  rfl

theorem parseI_numeralInt (i : Int) : parseI (numeralInt i ++ crlf) = .ok (ofInt i) := by
  unfold numeralInt
  split
  · have hi : -(i.natAbs : Int) = i := by omega
    rw [parseI_neg_numeral, hi]
  · have hi : (i.natAbs : Int) = i := by omega
    rw [parseI_numeral, ← ofInt_eq_ofNat, hi]

theorem numeral_noLF (n : Nat) : (10 : UInt8) ∉ numeral n := by
  intro h
  obtain ⟨d, hlt, hd⟩ := mem_numeral h
  exact digitByte_ne_newline hlt hd.symm

theorem numeralInt_noLF (i : Int) : (10 : UInt8) ∉ numeralInt i := by
  unfold numeralInt
  split
  · simpa using numeral_noLF _
  · exact numeral_noLF _

theorem numeralInt_length_le {i : Int} (hi : i.natAbs < 10 ^ 19) : (numeralInt i).length ≤ 20 := by
  have h := numeral_length_le (k := 19) (by decide) hi
  unfold numeralInt
  split
  · rw [length_cons]
    omega
  · omega

theorem readI_numeralInt (i : Int) (hi : i.natAbs < 10 ^ 19) (r : Bytes) :
    readI (numeralInt i ++ crlf ++ r) = (.ok (ofInt i), r) := by
  have hlf : (10 : UInt8) ∉ numeralInt i ++ [13] := by
    simpa using numeralInt_noLF i
  have hlen : (numeralInt i ++ [13]).length < defaultReadBuffer := by
    have h := numeralInt_length_le hi
    rw [length_append, length_singleton, defaultReadBuffer]
    omega
  have hline := readSlice_append ReadErr.eof .bufferFull defaultReadBuffer 10 _ r hlf hlen
  have hsplit : numeralInt i ++ crlf ++ r = numeralInt i ++ [13] ++ 10 :: r := by simp [crlf]
  have hparse : parseI (numeralInt i ++ [13] ++ [10]) = .ok (ofInt i) := by
    simpa [crlf] using parseI_numeralInt i
  unfold readI
  rw [hsplit, bind_ok hline, hparse]
  rfl

theorem readI_numeral (n : Nat) (hn : n < 2 ^ 63) (r : Bytes) :
    readI (numeral n ++ crlf ++ r) = (.ok (ofNat n), r) := by
  have h := readI_numeralInt (n : Int) (by simp only [Int.natAbs_natCast]; omega) r
  rwa [ofInt_eq_ofNat, numeralInt, if_neg (by omega), Int.natAbs_natCast] at h

theorem readI_question (r : Bytes) : readI (63 :: crlf ++ r) = (.error .errChunked, r) := by
  have hline := readSlice_append ReadErr.eof .bufferFull defaultReadBuffer 10 [63, 13] r
    (by decide) (by decide)
  have hsplit : (63 :: crlf ++ r : Bytes) = [63, 13] ++ 10 :: r := rfl
  unfold readI
  rw [hsplit, bind_ok hline]
  rfl

theorem discard_crlf (r : Bytes) : discard 2 (crlf ++ r) = (.ok (), r) :=
  discard_append .eof crlf r 2 rfl

theorem ofNat_ne_negOne (hn : n < 2 ^ 63) : ofNat n ≠ -1 := by
  rw [Ne, ← toInt_inj, toInt_ofNat_of_lt hn, show (-1 : Int64).toInt = -1 from rfl]
  omega

theorem makeSlice_ofNat {limit : Nat} (hn : n ≤ limit) (hlimit : n ≤ maxAlloc) (r : Bytes) :
    makeSlice limit (ofNat n) r = (.ok n, r) := by
  unfold makeSlice
  rw [if_pos (makes_ofNat hn hlimit), toNatClampNeg_ofNat_of_lt (lt_of_le_maxAlloc hlimit)]
  rfl

/-! ## Single messages -/

section Loop

variable {typ : UInt8} {fn : ReaderFn} {fuel : Nat} {r r' : Bytes} {m : RedisMessage}

theorem readNextLoop_ok (hfn : readers typ = some fn) (ht : typ ≠ typeAttribute)
    (attrs : Option RedisMessage)
    (hrun : fn.run fuel (readArray fuel) (readMap fuel) r = (.ok m, r')) :
    readNextLoop (fuel + 1) attrs (typ :: r) = (.ok { m with typ := typ, attrs := attrs }, r') := by
  rw [readNextLoop, bind_ok (x := readByte) (readByte_cons _ typ r), hfn]
  dsimp only
  rw [attempt_bind hrun]
  dsimp only
  rw [if_neg ht]
  rfl

theorem readNextLoop_attribute (attrs : Option RedisMessage)
    (hrun : readMap fuel r = (.ok m, r')) :
    readNextLoop (fuel + 1) attrs (typeAttribute :: r) =
      readNextLoop fuel (some { m with typ := typeAttribute }) r' := by
  rw [readNextLoop, bind_ok (x := readByte) (readByte_cons _ typeAttribute r)]
  change (attempt (readMap fuel) >>= _) r = _
  rw [attempt_bind hrun]
  dsimp only
  rw [if_pos rfl]

theorem readNextLoop_oldNull (hfn : readers typ = some fn) (attrs : Option RedisMessage)
    (hrun : fn.run fuel (readArray fuel) (readMap fuel) r = (.error .errOldNull, r')) :
    readNextLoop (fuel + 1) attrs (typ :: r) = (.ok { typ := typeNull }, r') := by
  rw [readNextLoop, bind_ok (x := readByte) (readByte_cons _ typ r), hfn]
  dsimp only
  rw [attempt_bind hrun]
  rfl

end Loop

theorem eq_ok_of_peek (t : LineText) (r : Bytes) (h : (t.text ++ crlf ++ r).take 4 = okrn) :
    t.text = ok := by
  have hcr := t.noCR
  have hokrn : okrn = [79, 75, 13, 10] := rfl
  have hok : ok = [79, 75] := rfl
  rw [hokrn] at h
  rw [hok]
  match htext : t.text with
  | [] => simp [htext, crlf] at h
  | [a] => simp [htext, crlf] at h
  | [a, b] => simpa [htext, crlf] using h
  | a :: b :: c :: cs => simp_all [crlf]

theorem readS_line (t : LineText) (r : Bytes) : readS (t.text ++ crlf ++ r) = (.ok t.text, r) := by
  have hlf : (10 : UInt8) ∉ t.text ++ [13] := by simpa using t.noLF
  have hline := readBytes_append ReadErr.eof 10 (t.text ++ [13]) r hlf
  have hsplit : t.text ++ crlf ++ r = t.text ++ [13] ++ 10 :: r := by simp [crlf]
  unfold readS
  rw [bind_ok (x := peek 2) rfl, bind_ok (x := peek 4) rfl]
  split
  next hpeek =>
    -- the stream starts with `OK\r\n`, and a text without line ends in front of it is `OK`
    rw [eq_ok_of_peek t r hpeek.2]
    rfl
  · rw [hsplit, bind_ok hline]
    have htrim : (t.text ++ [13] ++ [10]).take ((t.text ++ [13] ++ [10]).length - 2) = t.text := by
      simp
    rw [if_neg (by simp), htrim]
    rfl

theorem readB_blob (t : BlobText) (r : Bytes) :
    readB (numeral t.text.length ++ crlf ++ t.text ++ crlf ++ r) = (.ok t.text, r) := by
  have hassoc : numeral t.text.length ++ crlf ++ t.text ++ crlf ++ r =
      numeral t.text.length ++ crlf ++ (t.text ++ (crlf ++ r)) := by simp
  unfold readB
  have hfits := lt_of_le_maxAlloc t.fits
  rw [hassoc, bind_ok (readI_numeral _ hfits _), if_neg (ofNat_ne_negOne hfits),
    bind_ok (makeSlice_ofNat t.fits t.fits _),
    bind_ok (readFull_append ReadErr.eof .unexpectedEOF t.text _ _ rfl),
    bind_ok (discard_crlf r)]
  rfl

theorem readI_zero (r : Bytes) : readI (48 :: (crlf ++ r)) = (.ok 0, r) :=
  readI_numeral 0 (by decide) r

theorem discard_one (b : UInt8) (r : Bytes) : discard 1 (b :: r) = (.ok (), r) :=
  discard_append .eof [b] r 1 rfl

theorem ofNat_pos (h0 : 0 < n) (hn : n < 2 ^ 63) : ofNat n ≠ 0 ∧ ¬ ofNat n < 0 := by
  rw [Ne, ← toInt_inj, lt_iff_toInt_lt, toInt_ofNat_of_lt hn, toInt_zero]
  omega

/-- Chunks with the end mark, and what follows. -/
def chunksThen (cs : List Chunk) (rest : Bytes) : Bytes :=
  cs.flatMap encodeChunk ++ (typeChunk :: 48 :: crlf) ++ rest

theorem chunksThen_cons (c : Chunk) (cs : List Chunk) (rest : Bytes) : chunksThen (c :: cs) rest =
    typeChunk :: (numeral c.text.length ++ crlf ++ c.text ++ crlf ++ chunksThen cs rest) := by
  simp [chunksThen, encodeChunk]

theorem encode_chunked_append (kind : BlobKind) (cs : List Chunk) (rest : Bytes) :
    encode (.chunked kind cs) ++ rest = kind.typ :: (63 :: crlf ++ chunksThen cs rest) := by
  simp [encode, chunksThen]

theorem readChunks_encode (cs : List Chunk) (fuel : Nat) (sb r : Bytes)
    (hfuel : cs.length < fuel) :
    readChunks fuel sb (chunksThen cs r) = (.ok (sb ++ cs.flatMap (·.text)), r) := by
  induction cs generalizing fuel sb with
  | nil =>
    obtain ⟨fuel, rfl⟩ : ∃ k, fuel = k + 1 := ⟨fuel - 1, by omega⟩
    change readChunks (fuel + 1) sb (typeChunk :: 48 :: (crlf ++ r)) = (.ok (sb ++ []), r)
    unfold readChunks
    rw [bind_ok (discard_one _ _), bind_ok (readI_zero r), if_pos rfl, append_nil]
    rfl
  | cons c cs ih =>
    rw [length_cons] at hfuel
    obtain ⟨fuel, rfl⟩ : ∃ k, fuel = k + 1 := ⟨fuel - 1, by omega⟩
    have hpos : 0 < c.text.length := length_pos_of_ne_nil c.nonempty
    have hfits := lt_of_le_maxAlloc c.fits
    obtain ⟨hne, hnn⟩ := ofNat_pos hpos hfits
    rw [chunksThen_cons, append_assoc _ crlf, append_assoc _ c.text]
    unfold readChunks
    rw [bind_ok (discard_one _ _), bind_ok (readI_numeral _ hfits _), if_neg hne, if_neg hnn,
      toNatClampNeg_ofNat_of_lt hfits, if_neg (Nat.not_lt_of_le c.fits),
      bind_ok (readFull_append ReadErr.eof .eof c.text _ _ rfl),
      bind_ok (discard_crlf _), ih fuel _ (by omega)]
    simp

/-! ## Aggregates -/

def readAggregate (isMap : Bool) (fuel : Nat) : RespReader RedisMessage :=
  if isMap then readMap fuel else readArray fuel

theorem readA_ofNat (hn : n ≤ maxMessages) (r : Bytes) :
    readA (fuel + 1) (ofNat n) r = readMsgs fuel n r := by
  rw [readA, bind_ok (makeSlice_ofNat hn (le_maxAlloc_of_le_maxMessages hn) r)]

theorem readAggregate_counted (hn : n ≤ maxMessages) (heven : isMap → Even n)
    (hms : readMsgs fuel n r = (.ok ms, r')) :
    readAggregate isMap (fuel + 2) (numeral (elemCount isMap n) ++ crlf ++ r) =
      (.ok (({} : RedisMessage).setValues ms), r') := by
  have hA : readA (fuel + 1) (ofNat n) r = (.ok ms, r') := by rw [readA_ofNat hn, hms]
  have hlt := lt_of_le_maxAlloc (le_maxAlloc_of_le_maxMessages hn)
  cases isMap with
  | false =>
    change readArray (fuel + 1 + 1) (numeral n ++ crlf ++ r) = _
    rw [readArray, attempt_bind (readI_numeral n hlt r)]
    dsimp only
    rw [if_neg (ofNat_ne_negOne hlt), bind_ok hA]
    rfl
  | true =>
    change readMap (fuel + 1 + 1) (numeral (n / 2) ++ crlf ++ r) = _
    have hdouble : ofNat (n / 2) * 2 = ofNat n := by
      obtain ⟨k, rfl⟩ := heven rfl
      rw [show (k + k) / 2 = k by omega, show k + k = k * 2 by omega, ofNat_mul]
      rfl
    rw [readMap, attempt_bind (readI_numeral (n / 2) (by omega) r)]
    dsimp only
    rw [hdouble, bind_ok hA]
    rfl

theorem readAggregate_streamed (hms : readE fuel r = (.ok ms, r')) :
    readAggregate isMap (fuel + 1) (63 :: crlf ++ r) =
      (.ok (({} : RedisMessage).setValues ms), r') := by
  cases isMap
  · change readArray (fuel + 1) (63 :: crlf ++ r) = _
    rw [readArray, attempt_bind (readI_question r)]
    exact bind_ok hms
  · change readMap (fuel + 1) (63 :: crlf ++ r) = _
    rw [readMap, attempt_bind (readI_question r)]
    exact bind_ok hms

theorem readers_aggregate (kind : AggregateKind) :
    readers kind.typ = some (if kind.isMap then .map else .array) := by
  cases kind <;> rfl

theorem readNull_crlf (r : Bytes) : readNull (crlf ++ r) = (.ok {}, r) := by
  unfold readNull
  rw [bind_ok (discard_crlf r)]
  rfl

theorem readNextLoop_end (fuel : Nat) (r : Bytes) :
    readNextLoop (fuel + 1) none (typeEnd :: crlf ++ r) = (.ok { typ := typeEnd }, r) := by
  exact readNextLoop_ok (show readers typeEnd = some .null from rfl) (by decide) none
    (readNull_crlf r)

/-! ## Every message -/

theorem readNextLoop_line (kind : LineKind) (t : LineText) (fuel : Nat)
    (attrs : Option RedisMessage) (r : Bytes) :
    readNextLoop (fuel + 1) attrs (encode (.line kind t) ++ r) =
      (.ok (messageWith (.line kind t) attrs), r) := by
  have hfn : readers kind.typ = some .simpleString := by cases kind <;> rfl
  have hrun : ReaderFn.simpleString.run fuel (readArray fuel) (readMap fuel)
      (t.text ++ crlf ++ r) = (.ok (({} : RedisMessage).setString t.text), r) := by
    change (readS >>= _) (t.text ++ crlf ++ r) = _
    rw [bind_ok (readS_line t r)]
    rfl
  rw [encode, messageWith]
  exact readNextLoop_ok hfn (by cases kind <;> decide) attrs hrun

theorem readers_blob (kind : BlobKind) : readers kind.typ = some .blobString := by
  cases kind <;> rfl

theorem BlobKind.typ_ne_attribute (kind : BlobKind) : kind.typ ≠ typeAttribute := by
  cases kind <;> decide

theorem readNextLoop_blob (kind : BlobKind) (t : BlobText) (fuel : Nat)
    (attrs : Option RedisMessage) (r : Bytes) :
    readNextLoop (fuel + 1) attrs (encode (.blob kind t) ++ r) =
      (.ok (messageWith (.blob kind t) attrs), r) := by
  have hrun : ReaderFn.blobString.run fuel (readArray fuel) (readMap fuel)
      (numeral t.text.length ++ crlf ++ t.text ++ crlf ++ r) =
        (.ok (({} : RedisMessage).setString t.text), r) := by
    change (attempt readB >>= _) (numeral t.text.length ++ crlf ++ t.text ++ crlf ++ r) = _
    rw [attempt_bind (readB_blob t r)]
    rfl
  rw [encode, messageWith]
  exact readNextLoop_ok (readers_blob kind) kind.typ_ne_attribute attrs hrun

theorem readNextLoop_chunked (kind : BlobKind) (cs : List Chunk) (fuel : Nat)
    (attrs : Option RedisMessage) (r : Bytes) (hfuel : cs.length < fuel) :
    readNextLoop (fuel + 1) attrs (encode (.chunked kind cs) ++ r) =
      (.ok (messageWith (.chunked kind cs) attrs), r) := by
  have hB (q : Bytes) : readB (63 :: crlf ++ q) = (.error .errChunked, q) := by
    unfold readB
    rw [bind_error (readI_question q)]
  have hrun : ReaderFn.blobString.run fuel (readArray fuel) (readMap fuel)
      (63 :: crlf ++ chunksThen cs r) =
        (.ok (({} : RedisMessage).setString (cs.flatMap (·.text))), r) := by
    change (attempt readB >>= _) _ = _
    rw [attempt_bind (hB _)]
    dsimp only
    rw [bind_ok (readChunks_encode cs fuel [] r hfuel)]
    rfl
  rw [encode_chunked_append, messageWith]
  exact readNextLoop_ok (readers_blob kind) kind.typ_ne_attribute attrs hrun

theorem natAbs_toInt_lt (v : Int64) : v.toInt.natAbs < 10 ^ 19 := by
  have hlo := le_toInt v
  have hhi := toInt_lt v
  omega

theorem readNextLoop_integer (v : Int64) (fuel : Nat) (attrs : Option RedisMessage) (r : Bytes) :
    readNextLoop (fuel + 1) attrs (encode (.integer v) ++ r) =
      (.ok (messageWith (.integer v) attrs), r) := by
  have hrun : ReaderFn.integer.run fuel (readArray fuel) (readMap fuel)
      (numeralInt v.toInt ++ crlf ++ r) = (.ok { intlen := v }, r) := by
    change (readI >>= _) (numeralInt v.toInt ++ crlf ++ r) = _
    rw [bind_ok (readI_numeralInt v.toInt (natAbs_toInt_lt v) r), ofInt_toInt]
    rfl
  rw [encode, messageWith]
  exact readNextLoop_ok (by rfl) (by decide) attrs hrun

theorem readNextLoop_boolean (b : Bool) (fuel : Nat) (attrs : Option RedisMessage) (r : Bytes) :
    readNextLoop (fuel + 1) attrs (encode (.boolean b) ++ r) =
      (.ok (messageWith (.boolean b) attrs), r) := by
  have hrun : ReaderFn.boolean.run fuel (readArray fuel) (readMap fuel)
      ((if b then 116 else 102) :: (crlf ++ r)) = (.ok { intlen := if b then 1 else 0 }, r) := by
    change (readByte >>= _) ((if b then 116 else 102) :: (crlf ++ r)) = _
    rw [bind_ok (x := readByte) (readByte_cons _ _ (crlf ++ r)),
      bind_ok (discard_crlf r)]
    cases b <;> rfl
  rw [encode, messageWith]
  exact readNextLoop_ok (by rfl) (by decide) attrs hrun

theorem readNextLoop_null (fuel : Nat) (attrs : Option RedisMessage) (r : Bytes) :
    readNextLoop (fuel + 1) attrs (encode .null ++ r) = (.ok (messageWith .null attrs), r) := by
  rw [encode, messageWith]
  exact readNextLoop_ok (show readers typeNull = some .null from rfl) (by decide) attrs
    (readNull_crlf r)

theorem readNextLoop_oldNull_encode (asBlob : Bool) (fuel : Nat) (r : Bytes) :
    readNextLoop (fuel + 2) none (encode (.oldNull asBlob) ++ r) =
      (.ok (messageWith (.oldNull asBlob) none), r) := by
  have hI : readI (numeralInt (-1) ++ crlf ++ r) = (.ok (-1), r) :=
    readI_numeralInt (-1) (by decide) r
  cases asBlob with
  | true =>
    have hB : readB (numeralInt (-1) ++ crlf ++ r) = (.error .errOldNull, r) := by
      unfold readB
      rw [bind_ok hI, if_pos rfl]
      rfl
    have hrun : ReaderFn.blobString.run (fuel + 1) (readArray (fuel + 1)) (readMap (fuel + 1))
        (numeralInt (-1) ++ crlf ++ r) = (.error .errOldNull, r) := by
      change (attempt readB >>= _) (numeralInt (-1) ++ crlf ++ r) = _
      rw [attempt_bind hB]
      rfl
    exact readNextLoop_oldNull (by rfl) none hrun
  | false =>
    have hrun : ReaderFn.array.run (fuel + 1) (readArray (fuel + 1)) (readMap (fuel + 1))
        (numeralInt (-1) ++ crlf ++ r) = (.error .errOldNull, r) := by
      change readArray (fuel + 1) (numeralInt (-1) ++ crlf ++ r) = _
      rw [readArray, attempt_bind hI]
      dsimp only
      rw [if_pos rfl]
      rfl
    exact readNextLoop_oldNull (by rfl) none hrun

theorem encode_length_pos (w : Wire) : 0 < (encode w).length := by
  cases w <;> simp [encode]

theorem header_length (s : Bool) (n : Nat) : 3 ≤ (header s n).length := by
  unfold header
  split
  · decide
  · have h := length_pos_of_ne_nil (numeral_ne_nil n)
    simp only [crlf, length_append, length_cons, length_nil]
    omega

theorem trailer_true : trailer true = typeEnd :: crlf := rfl

theorem readAggregate_encode (isMap s : Bool) (es : List Wire) (fuel : Nat) (r : Bytes)
    (hlen : es.length ≤ maxMessages) (heven : isMap → Even es.length)
    (hmsgs : ∀ f q, (encodeElems es).length + 1 < f →
      readMsgs f es.length (encodeElems es ++ q) = (.ok (messages es), q))
    (hend : ∀ f q, (encodeElems es).length + 1 < f →
      readE f (encodeElems es ++ (trailer true ++ q)) = (.ok (messages es), q))
    (hfuel : (header s (elemCount isMap es.length) ++ encodeElems es ++ trailer s).length < fuel) :
    readAggregate isMap fuel
        (header s (elemCount isMap es.length) ++ encodeElems es ++ trailer s ++ r) =
      (.ok (({} : RedisMessage).setValues (messages es)), r) := by
  have hh := header_length s (elemCount isMap es.length)
  rw [length_append, length_append] at hfuel
  cases s with
  | true =>
    obtain ⟨fuel, rfl⟩ : ∃ k, fuel = k + 1 := ⟨fuel - 1, by omega⟩
    rw [append_assoc, append_assoc]
    exact readAggregate_streamed (hend fuel r (by omega))
  | false =>
    obtain ⟨fuel, rfl⟩ : ∃ k, fuel = k + 2 := ⟨fuel - 2, by omega⟩
    rw [trailer, if_neg Bool.false_ne_true, append_nil, append_assoc]
    exact readAggregate_counted hlen heven (hmsgs fuel r (by omega))

theorem typ_ne_end (w : Wire) : w.typ ≠ typeEnd := by
  match w with
  | .line kind _ | .blob kind _ | .chunked kind _ | .aggregate kind _ _ =>
    rw [Wire.typ]
    cases kind <;> decide
  | .integer _ | .boolean _ | .null | .oldNull _ =>
    rw [Wire.typ]
    decide
  | .attribute _ _ next =>
    rw [Wire.typ]
    exact typ_ne_end next

theorem length_le_encodeChunks (cs : List Chunk) :
    cs.length ≤ (cs.flatMap encodeChunk).length := by
  induction cs with
  | nil => simp
  | cons c cs ih =>
    have hc : 1 ≤ (encodeChunk c).length := by simp [encodeChunk]
    rw [flatMap_cons, length_append, length_cons]
    omega

theorem chunked_length_lt (kind : BlobKind) (cs : List Chunk) :
    cs.length + 1 < (encode (.chunked kind cs)).length := by
  have hsum := length_le_encodeChunks cs
  rw [encode]
  simp only [length_cons, length_append, cons_append]
  omega

mutual

theorem readNextLoop_encode : ∀ (w : Wire) (fuel : Nat) (attrs : Option RedisMessage) (r : Bytes),
    w.Valid → (attrs.isSome → w.takesAttrs) → (encode w).length < fuel →
    readNextLoop fuel attrs (encode w ++ r) = (.ok (messageWith w attrs), r)
  | w, 0, _, _, _, _, hfuel => by omega
  | .line kind t, fuel + 1, attrs, r, _, _, _ => readNextLoop_line kind t fuel attrs r
  | .blob kind t, fuel + 1, attrs, r, _, _, _ => readNextLoop_blob kind t fuel attrs r
  | .chunked kind cs, fuel + 1, attrs, r, _, _, hfuel => by
      have h := chunked_length_lt kind cs
      exact readNextLoop_chunked kind cs fuel attrs r (by omega)
  | .integer v, fuel + 1, attrs, r, _, _, _ => readNextLoop_integer v fuel attrs r
  | .boolean b, fuel + 1, attrs, r, _, _, _ => readNextLoop_boolean b fuel attrs r
  | .null, fuel + 1, attrs, r, _, _, _ => readNextLoop_null fuel attrs r
  | .oldNull asBlob, fuel + 1, attrs, r, _, hattrs, hfuel => by
      have hnone : attrs = none := by simpa [Wire.takesAttrs] using hattrs
      have hpos : ∃ k, fuel = k + 1 := ⟨fuel - 1, by rw [encode] at hfuel; simp at hfuel; omega⟩
      obtain ⟨fuel, rfl⟩ := hpos
      rw [hnone]
      exact readNextLoop_oldNull_encode asBlob fuel r
  | .aggregate kind s es, fuel + 1, attrs, r, hvalid, _, hfuel => by
      obtain ⟨hlen, heven, helems⟩ := hvalid
      rw [encode, length_cons] at hfuel
      have hbody := readAggregate_encode kind.isMap s es fuel r hlen heven
        (fun f q hf => readMsgs_encode es f q helems hf)
        (fun f q hf => readE_encode es f q helems hf) (by omega)
      have hrun : (if kind.isMap then ReaderFn.map else .array).run fuel (readArray fuel)
          (readMap fuel) = readAggregate kind.isMap fuel := by
        cases kind <;> rfl
      rw [encode, messageWith, cons_append]
      exact readNextLoop_ok (readers_aggregate kind) (by cases kind <;> decide) attrs
        (by rw [hrun, hbody])
  | .attribute s es next, fuel + 1, attrs, r, hvalid, _, hfuel => by
      obtain ⟨hlen, heven, helems, htakes, hnext⟩ := hvalid
      rw [encode, length_append, length_cons] at hfuel
      have hbody := readAggregate_encode true s es fuel (encode next ++ r) hlen (fun _ => heven)
        (fun f q hf => readMsgs_encode es f q helems hf)
        (fun f q hf => readE_encode es f q helems hf) (by omega)
      rw [encode, messageWith, append_assoc, cons_append,
        readNextLoop_attribute attrs hbody]
      exact readNextLoop_encode next fuel _ r hnext (fun _ => htakes) (by omega)

theorem readMsgs_encode : ∀ (es : List Wire) (fuel : Nat) (r : Bytes), ValidElems es →
    (encodeElems es).length + 1 < fuel →
    readMsgs fuel es.length (encodeElems es ++ r) = (.ok (messages es), r)
  | [], 0, _, _, _ => rfl
  | [], _ + 1, _, _, _ => rfl
  | e :: es, 0, _, _, hfuel => by omega
  | e :: es, fuel + 1, r, hvalid, hfuel => by
      obtain ⟨he, hes⟩ := hvalid
      have hpos := encode_length_pos e
      rw [encodeElems, length_append] at hfuel
      have hhead := readNextLoop_encode e fuel none (encodeElems es ++ r) he (by simp) (by omega)
      rw [length_cons, readMsgs, encodeElems, append_assoc, bind_ok hhead,
        bind_ok (readMsgs_encode es fuel r hes (by omega))]
      rfl

theorem readE_encode : ∀ (es : List Wire) (fuel : Nat) (r : Bytes), ValidElems es →
    (encodeElems es).length + 1 < fuel →
    readE fuel (encodeElems es ++ (trailer true ++ r)) = (.ok (messages es), r)
  | es, 0, _, _, hfuel => by omega
  | [], 1, _, _, hfuel => by omega
  | [], fuel + 2, r, _, _ => by
      rw [readE, encodeElems, nil_append, trailer_true, bind_ok (readNextLoop_end fuel r)]
      rfl
  | e :: es, fuel + 1, r, hvalid, hfuel => by
      obtain ⟨he, hes⟩ := hvalid
      have hpos := encode_length_pos e
      rw [encodeElems, length_append] at hfuel
      have hhead := readNextLoop_encode e fuel none (encodeElems es ++ (trailer true ++ r)) he
        (by simp) (by omega)
      have hmore : (messageWith e none).typ ≠ typeEnd := by
        rw [Wire.messageWith_typ]
        exact typ_ne_end e
      rw [readE, encodeElems, append_assoc, bind_ok hhead, if_neg hmore,
        bind_ok (readE_encode es fuel r hes (by omega))]
      rfl

end

theorem readNextMessage_encode (w : Wire) (hw : w.Valid) (rest : Bytes) :
    readNextMessage (w.encode ++ rest) = (.ok w.message, rest) := by
  have hfuel : (encode w).length < (w.encode ++ rest).length + 1 := by
    rw [length_append]
    omega
  exact readNextLoop_encode w _ none rest hw (by simp) hfuel

/-- `bs` is one of the standard wire forms of the message tree `m`. -/
def Encodes (bs : Bytes) (m : RedisMessage) : Prop :=
  ∃ w : Wire, w.Valid ∧ w.encode = bs ∧ w.message = m

/-- The reader inverts every encoding of a message tree, whatever bytes follow it. -/
theorem readNextMessage_of_encodes (m : RedisMessage) (bs rest : Bytes) (hm : Encodes bs m) :
    readNextMessage (bs ++ rest) = (.ok m, rest) := by
  obtain ⟨w, hw, rfl, rfl⟩ := hm
  exact readNextMessage_encode w hw rest

theorem readNextMessage_of_encodes_streamed_map :
    readNextMessage (lit "|1\r\n+ttl\r\n:-9\r\n%?\r\n$?\r\n;1\r\na\r\n;0\r\n*-1\r\n.\r\n" ++
        lit "+next\r\n") =
      (.ok { typ := typeMap, intlen := 2,
             attrs := some { typ := typeAttribute, intlen := 2, array := some [
               { typ := typeSimpleString, intlen := 3, bytes := some (lit "ttl") },
               { typ := typeInteger, intlen := -9 }] },
             array := some [{ typ := typeBlobString, intlen := 1, bytes := some (lit "a") },
               { typ := typeNull }] },
        lit "+next\r\n") :=
  readNextMessage_of_encodes _ _ _
    ⟨.attribute false [.line .simpleString ⟨lit "ttl", by decide, by decide⟩, .integer (-9)]
        (.aggregate .map true
          [.chunked .blobString [⟨⟨lit "a", by decide⟩, by decide⟩], .oldNull false]),
      by simp [Valid, ValidElems, Wire.takesAttrs, maxMessages, maxAlloc], rfl, rfl⟩

end Rueidis
