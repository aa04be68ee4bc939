import Rueidis.Library.ByteReader
import Rueidis.Message

/-!
# The RESP reader

`readNextMessage` and the readers it dispatches to, over the bytes a connection still holds.  The
readers call each other in a cycle; the model threads a fuel argument through it.  Every message
takes at least one byte, so `readNextMessage` starts with one more unit than there are bytes.
-/

namespace Rueidis

inductive ReadErr where
  | eof
  | unexpectedEOF
  | bufferFull
  | negativeCount
  /-- `errChunked`: the length is `?`. -/
  | errChunked
  /-- `errOldNull`: the length is the `-1` of a RESP2 null. -/
  | errOldNull
  | new (text : String)
  | panic (p : Panic)
  | outOfFuel
deriving DecidableEq, Repr

abbrev RespReader := ByteReader ReadErr

open ByteReader (fail attempt peek bind_eq_ok)

def defaultReadBuffer : Nat := 1 <<< 19

def unexpectedNoCRLF : String := "received unexpected simple string message ending without CRLF"
def unexpectedNumByte : String := "received unexpected number byte: "
def unknownMessageType : String := "received unknown message type: "

def readByte : RespReader UInt8 := ByteReader.readByte .eof
def discard (n : Nat) : RespReader Unit := ByteReader.discard .eof n

def ok : Bytes := lit "OK"
def okrn : Bytes := lit "OK\r\n"

/-- A line without its last two bytes; the common `OK` is recognised by peeking. -/
def readS : RespReader Bytes := do
  let peek2 ← peek 2
  let peek4 ← peek 4
  if peek2 = ok ∧ peek4 = okrn then
    discard 4
    return ok
  else
    let bs ← ByteReader.readBytes .eof 10
    if bs.length < 2 then fail (.new unexpectedNoCRLF) else return bs.take (bs.length - 2)

/-- The digit loop of `readI`, in wrapping 64-bit arithmetic. -/
def accumulate (v : Int64) : Bytes → Except ReadErr Int64
  | [] => .ok v
  | c :: cs =>
    let d := Int64.ofNat (c - 48).toNat
    if 0 ≤ d ∧ d ≤ 9 then accumulate (v * 10 + d) cs
    else .error (.new (unexpectedNumByte ++ toString c.toNat))

def parseI (bs : Bytes) : Except ReadErr Int64 :=
  if bs.length < 3 then .error (.new unexpectedNoCRLF)
  else if bs.headD 0 = 63 then .error .errChunked
  else if bs.headD 0 = 45 then
    (accumulate 0 (bs.tail.take (bs.tail.length - 2))).map (· * (-1))
  else (accumulate 0 (bs.take (bs.length - 2))).map (· * 1)

def readI : RespReader Int64 := do
  let bs ← ByteReader.readSlice .eof .bufferFull defaultReadBuffer 10
  match parseI bs with
  | .ok v => return v
  | .error e => fail e

/-- `make` of a slice, which panics on a negative length and on one that cannot be allocated. -/
def makeSlice (limit : Nat) (length : Int64) : RespReader Nat :=
  if Makes limit length then return length.toNatClampNeg else fail (.panic lenOutOfRange)

def readB : RespReader Bytes := do
  let length ← readI
  if length = -1 then fail .errOldNull
  else
    let n ← makeSlice maxAlloc length
    let bs ← ByteReader.readFull .eof .unexpectedEOF n
    discard 2
    return bs

def readChunks : Nat → Bytes → RespReader Bytes
  | 0, _ => fail .outOfFuel
  | fuel + 1, sb => do
      discard 1
      let length ← readI
      if length = 0 then return sb
      else if length < 0 then fail (.panic ⟨"strings.Builder.Grow: negative count"⟩)
      -- what the builder holds already also counts, but it has been received
      else if maxAlloc < length.toNatClampNeg then fail (.panic lenOutOfRange)
      else
        let chunk ← ByteReader.readFull .eof .eof length.toNatClampNeg
        discard 2
        readChunks fuel (sb ++ chunk)

def readSimpleString : RespReader RedisMessage := do
  return ({} : RedisMessage).setString (← readS)

def readBlobString (fuel : Nat) : RespReader RedisMessage := do
  match ← attempt readB with
  | .ok bs => return ({} : RedisMessage).setString bs
  | .error .errChunked => return ({} : RedisMessage).setString (← readChunks fuel [])
  | .error e => fail e

def readInteger : RespReader RedisMessage := do
  return { intlen := (← readI) }

def readBoolean : RespReader RedisMessage := do
  let b ← readByte
  discard 2
  return { intlen := if b = 116 then 1 else 0 }

def readNull : RespReader RedisMessage := do
  discard 2
  return {}

inductive ReaderFn where
  | blobString
  | simpleString
  | integer
  | null
  | boolean
  | array
  | map
deriving DecidableEq, Repr

def readers (typ : UInt8) : Option ReaderFn :=
  if typ = typeBlobString ∨ typ = typeBlobErr ∨ typ = typeVerbatimString then some .blobString
  else if typ = typeSimpleString ∨ typ = typeSimpleErr ∨ typ = typeFloat ∨ typ = typeBigNumber then
    some .simpleString
  else if typ = typeInteger then some .integer
  else if typ = typeNull ∨ typ = typeEnd then some .null
  else if typ = typeBool then some .boolean
  else if typ = typeArray ∨ typ = typeSet ∨ typ = typePush then some .array
  else if typ = typeMap ∨ typ = typeAttribute then some .map
  else none

/-- Run an entry of the table; `array` and `map` are the two readers that call back. -/
def ReaderFn.run (fuel : Nat) (array map : RespReader RedisMessage) :
    ReaderFn → RespReader RedisMessage
  | .blobString => readBlobString fuel
  | .simpleString => readSimpleString
  | .integer => readInteger
  | .null => readNull
  | .boolean => readBoolean
  | .array => array
  | .map => map

mutual

/-- The loop of `readNextMessage`; `attrs` is the attribute map read last. -/
def readNextLoop : Nat → Option RedisMessage → RespReader RedisMessage
  | 0, _ => fail .outOfFuel
  | fuel + 1, attrs => do
      let typ ← readByte
      match readers typ with
      | none => fail (.new (unknownMessageType ++ toString typ.toNat))
      | some fn =>
        match ← attempt (fn.run fuel (readArray fuel) (readMap fuel)) with
        | .error .errOldNull => return { typ := typeNull }
        | .error e => fail e
        | .ok m =>
          if typ = typeAttribute then readNextLoop fuel (some { m with typ := typ })
          else return { m with typ := typ, attrs := attrs }

def readArray : Nat → RespReader RedisMessage
  | 0 => fail .outOfFuel
  | fuel + 1 => do
      match ← attempt readI with
      | .ok length =>
        if length = -1 then fail .errOldNull
        else return ({} : RedisMessage).setValues (← readA fuel length)
      | .error .errChunked => return ({} : RedisMessage).setValues (← readE fuel)
      | .error e => fail e

def readMap : Nat → RespReader RedisMessage
  | 0 => fail .outOfFuel
  | fuel + 1 => do
      match ← attempt readI with
      | .ok length => return ({} : RedisMessage).setValues (← readA fuel (length * 2))
      | .error .errChunked => return ({} : RedisMessage).setValues (← readE fuel)
      | .error e => fail e

def readE : Nat → RespReader (List RedisMessage)
  | 0 => fail .outOfFuel
  | fuel + 1 => do
      let n ← readNextLoop fuel none
      if n.typ = typeEnd then return []
      else return n :: (← readE fuel)

def readA : Nat → Int64 → RespReader (List RedisMessage)
  | 0, _ => fail .outOfFuel
  | fuel + 1, length => do
      let n ← makeSlice maxMessages length
      readMsgs fuel n

def readMsgs : Nat → Nat → RespReader (List RedisMessage)
  | _, 0 => return []
  | 0, _ + 1 => fail .outOfFuel
  | fuel + 1, n + 1 => do
      let m ← readNextLoop fuel none
      return m :: (← readMsgs fuel n)

end

def readNextMessage : RespReader RedisMessage := fun r => readNextLoop (r.length + 1) none r

/-! ## The shape of what is read -/

def RedisMessage.Shaped (m : RedisMessage) : Prop :=
  m.array = none ∨ (m.bytes = none ∧ m.typ ≠ typeSimpleErr)

variable {fuel : Nat} {r r' : Bytes} {m : RedisMessage}

theorem ReaderFn.run_scalar {fn : ReaderFn} {array map : RespReader RedisMessage}
    (hfn : fn ≠ .array ∧ fn ≠ .map) (h : fn.run fuel array map r = (.ok m, r')) :
    m.array = none := by
  cases fn with
  | blobString =>
    obtain ⟨o, r₁, -, h⟩ := bind_eq_ok h
    match o, h with
    | .ok bs, h =>
      cases h
      rfl
    | .error .errChunked, h =>
      obtain ⟨bs, r₂, -, h⟩ := bind_eq_ok h
      cases h
      rfl
  | simpleString =>
    obtain ⟨bs, r₁, -, h⟩ := bind_eq_ok h
    cases h
    rfl
  | integer =>
    obtain ⟨v, r₁, -, h⟩ := bind_eq_ok h
    cases h
    rfl
  | null =>
    obtain ⟨_, r₁, -, h⟩ := bind_eq_ok h
    cases h
    rfl
  | boolean =>
    obtain ⟨b, r₁, -, h⟩ := bind_eq_ok h
    obtain ⟨_, r₂, -, h⟩ := bind_eq_ok h
    cases h
    rfl
  | array => exact absurd rfl hfn.1
  | map => exact absurd rfl hfn.2

theorem readArray_bytes (h : readArray fuel r = (.ok m, r')) : m.bytes = none := by
  cases fuel with
  | zero => cases h
  | succ fuel =>
    rw [readArray] at h
    obtain ⟨o, r₁, -, h⟩ := bind_eq_ok h
    match o, h with
    | .ok length, h =>
      dsimp only at h
      split at h
      · cases h
      · obtain ⟨vs, r₂, -, h⟩ := bind_eq_ok h
        cases h
        rfl
    | .error .errChunked, h =>
      obtain ⟨vs, r₂, -, h⟩ := bind_eq_ok h
      cases h
      rfl

theorem readMap_bytes (h : readMap fuel r = (.ok m, r')) : m.bytes = none := by
  cases fuel with
  | zero => cases h
  | succ fuel =>
    rw [readMap] at h
    obtain ⟨o, r₁, -, h⟩ := bind_eq_ok h
    match o, h with
    | .ok length, h | .error .errChunked, h =>
      obtain ⟨vs, r₂, -, h⟩ := bind_eq_ok h
      cases h
      rfl

theorem readNextLoop_shaped {attrs : Option RedisMessage}
    (h : readNextLoop fuel attrs r = (.ok m, r')) : m.Shaped := by
  induction fuel generalizing attrs r with
  | zero => cases h
  | succ fuel ih =>
    rw [readNextLoop] at h
    obtain ⟨typ, r₁, -, h⟩ := bind_eq_ok h
    match hfn : readers typ, h with
    | none, h => cases h
    | some fn, h =>
      obtain ⟨o, r₂, hrun, h⟩ := bind_eq_ok h
      match o, h with
      | .error .errOldNull, h =>
        cases h
        exact .inl rfl
      | .ok x, h =>
        have hx := ByteReader.attempt_eq_ok hrun
        dsimp only at h
        split at h
        · exact ih h
        · cases h
          by_cases hagg : fn ≠ .array ∧ fn ≠ .map
          · have harray : x.array = none := ReaderFn.run_scalar hagg hx
            exact .inl harray
          · right
            have htyp : typ ≠ typeSimpleErr := by
              rintro rfl
              have hsimple : readers typeSimpleErr = some .simpleString := rfl
              rw [hsimple] at hfn
              cases hfn
              exact hagg (by decide)
            have hbytes : x.bytes = none := by
              match fn, hagg with
              | .array, _ => exact readArray_bytes hx
              | .map, _ => exact readMap_bytes hx
            exact ⟨hbytes, htyp⟩

theorem readNextMessage_shaped (h : readNextMessage r = (.ok m, r')) : m.Shaped :=
  readNextLoop_shaped h

end Rueidis
