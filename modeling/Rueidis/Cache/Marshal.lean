import Rueidis.Library.ByteOrder
import Rueidis.Message

/-!
# Messages in a byte buffer

`CacheMarshal` writes a message with its expiry into a buffer that other caches can keep, and
`CacheUnmarshalView` reads it back.  A message is its type, eight bytes, and what belongs to it: the
eight bytes are a number, the length of a text, or the number of elements.
-/

namespace Rueidis

open ByteOrder

/-! ## Writing -/

mutual

def RedisMessage.cachesize : RedisMessage → Nat
  | ⟨_, bytes, array, _, typ, _⟩ =>
    9 + if typ = typeInteger ∨ typ = typeNull ∨ typ = typeBool then 0
      else if typ = typeArray ∨ typ = typeMap ∨ typ = typeSet then cachesizeArray array
      else (bytes.getD []).length
termination_by structural m => m

def cachesizeArray : Option (List RedisMessage) → Nat
  | none => 0
  | some vs => cachesizeValues vs
termination_by structural vs => vs

def cachesizeValues : List RedisMessage → Nat
  | [] => 0
  | v :: vs => v.cachesize + cachesizeValues vs
termination_by structural vs => vs

end

def putUint64 (x : UInt64) : Bytes := putBE 8 x.toNat

mutual

def RedisMessage.serialize : RedisMessage → Bytes
  | ⟨_, bytes, array, intlen, typ, _⟩ =>
    typ :: if typ = typeInteger ∨ typ = typeNull ∨ typ = typeBool then putUint64 intlen.toUInt64
      else if typ = typeArray ∨ typ = typeMap ∨ typ = typeSet then
        putUint64 (UInt64.ofNat (array.getD []).length) ++ serializeArray array
      else putUint64 (UInt64.ofNat (bytes.getD []).length) ++ bytes.getD []
termination_by structural m => m

def serializeArray : Option (List RedisMessage) → Bytes
  | none => []
  | some vs => serializeValues vs
termination_by structural vs => vs

def serializeValues : List RedisMessage → Bytes
  | [] => []
  | v :: vs => v.serialize ++ serializeValues vs
termination_by structural vs => vs

end

def RedisMessage.cacheSize (m : RedisMessage) : Nat := m.cachesize + 7

def RedisMessage.ttlBytes (m : RedisMessage) : Bytes := putLE 7 m.ttl.toNat

def RedisMessage.cacheMarshal (m : RedisMessage) (buf : Bytes) : Bytes :=
  buf ++ m.ttlBytes ++ m.serialize

/-! ## Reading -/

inductive UnmarshalErr where
  | cacheUnmarshal
  | panic (p : Panic)
  | outOfFuel
deriving DecidableEq, Repr

def sliceBoundsOutOfRange : Panic := ⟨"runtime error: slice bounds out of range"⟩

/-- `int64(binary.BigEndian.Uint64(buf[c : c+8]))`. -/
def int64At (c : Int64) (buf : Bytes) : Int64 :=
  (UInt64.ofNat (getBE ((buf.drop c.toNatClampNeg).take 8))).toInt64

/-- What belongs to a message whose type was read, with its eight bytes `size`, from offset `c` on;
`values` reads elements from there. -/
def unmarshalContent (values : Nat → Except UnmarshalErr (List RedisMessage × Int64))
    (m : RedisMessage) (size c : Int64) (buf : Bytes) : Except UnmarshalErr (RedisMessage × Int64) :=
  if m.typ = typeInteger ∨ m.typ = typeNull ∨ m.typ = typeBool then
    .ok ({ m with intlen := size }, c)
  else if m.typ = typeArray ∨ m.typ = typeMap ∨ m.typ = typeSet then
    if ¬ Makes maxMessages size then .error (.panic lenOutOfRange)
    else match values size.toNatClampNeg with
      | .error e => .error e
      | .ok (vs, c) => .ok (m.setValues vs, c)
  else if Int64.ofNat buf.length < c + size then .error .cacheUnmarshal
  -- a size that is negative or takes the sum around
  else if c + size < c then .error (.panic sliceBoundsOutOfRange)
  else .ok (m.setString ((buf.drop c.toNatClampNeg).take size.toNatClampNeg), c + size)

mutual

/-- The message at offset `c`, and the offset behind it.  Every message takes some of the buffer, so
one unit of fuel for every byte is enough. -/
def unmarshalView : (fuel : Nat) → RedisMessage → Int64 → Bytes →
    Except UnmarshalErr (RedisMessage × Int64)
  | 0, _, _, _ => .error .outOfFuel
  | fuel + 1, m, c, buf =>
    if Int64.ofNat buf.length < c + 9 then .error .cacheUnmarshal
    else unmarshalContent (fun n => unmarshalValues fuel n (c + 1 + 8) buf)
      { m with typ := buf.getD c.toNatClampNeg 0 } (int64At (c + 1) buf) (c + 1 + 8) buf

def unmarshalValues : (fuel n : Nat) → Int64 → Bytes →
    Except UnmarshalErr (List RedisMessage × Int64)
  | _, 0, c, _ => .ok ([], c)
  | 0, _ + 1, _, _ => .error .outOfFuel
  | fuel + 1, n + 1, c, buf =>
    match unmarshalView fuel {} c buf with
    | .error e => .error e
    | .ok (v, c) =>
      match unmarshalValues fuel n c buf with
      | .error e => .error e
      | .ok (vs, c) => .ok (v :: vs, c)

end

def RedisMessage.cacheUnmarshalView (m : RedisMessage) (buf : Bytes) :
    Except UnmarshalErr RedisMessage :=
  if buf.length < 7 then .error .cacheUnmarshal
  else
    let m := { m with ttl := BitVec.ofNat 56 (getLE (buf.take 7)) }
    match unmarshalView (buf.length + 1) m 7 buf with
    | .error e => .error e
    | .ok (m, _) => .ok { m with attrs := some cacheMark }

end Rueidis
