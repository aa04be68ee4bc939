import Rueidis.Library.Decimal
import Rueidis.Resp.Read

/-!
# The wire form of a message

A `Wire` is a message together with the choices its sender has: a blob with its length or in
chunks, an aggregate counted or streamed, the attribute maps in front of it, and the RESP2 spelling
of null.  `encode` gives its bytes and `message` what a client should see.
-/

namespace Rueidis

open Decimal (numeral numeralInt)

inductive LineKind where
  | simpleString
  | simpleErr
  | float
  | bigNumber
deriving DecidableEq, Repr

def LineKind.typ : LineKind → UInt8
  | .simpleString => typeSimpleString
  | .simpleErr => typeSimpleErr
  | .float => typeFloat
  | .bigNumber => typeBigNumber

inductive BlobKind where
  | blobString
  | blobErr
  | verbatimString
deriving DecidableEq, Repr

def BlobKind.typ : BlobKind → UInt8
  | .blobString => typeBlobString
  | .blobErr => typeBlobErr
  | .verbatimString => typeVerbatimString

inductive AggregateKind where
  | array
  | set
  | push
  | map
deriving DecidableEq, Repr

def AggregateKind.typ : AggregateKind → UInt8
  | .array => typeArray
  | .set => typeSet
  | .push => typePush
  | .map => typeMap

structure LineText where
  text : Bytes
  noCR : 13 ∉ text
  noLF : 10 ∉ text

structure BlobText where
  text : Bytes
  fits : text.length ≤ maxAlloc

structure Chunk extends BlobText where
  nonempty : text ≠ []

inductive Wire where
  | line (kind : LineKind) (text : LineText)
  | blob (kind : BlobKind) (text : BlobText)
  | chunked (kind : BlobKind) (chunks : List Chunk)
  | integer (v : Int64)
  | boolean (b : Bool)
  | null
  /-- The RESP2 null, spelled as a blob or as an array of length `-1`. -/
  | oldNull (asBlob : Bool)
  | aggregate (kind : AggregateKind) (streamed : Bool) (elems : List Wire)
  | attribute (streamed : Bool) (elems : List Wire) (next : Wire)

def crlf : Bytes := [13, 10]

def encodeChunk (c : Chunk) : Bytes := typeChunk :: (numeral c.text.length ++ crlf ++ c.text ++ crlf)

def elemCount (isMap : Bool) (n : Nat) : Nat := if isMap then n / 2 else n

def header (streamed : Bool) (count : Nat) : Bytes :=
  if streamed then 63 :: crlf else numeral count ++ crlf

def trailer (streamed : Bool) : Bytes := if streamed then typeEnd :: crlf else []

def AggregateKind.isMap : AggregateKind → Bool
  | .map => true
  | _ => false

namespace Wire

mutual

def encode : Wire → Bytes
  | .line kind t => kind.typ :: (t.text ++ crlf)
  | .blob kind t => kind.typ :: (numeral t.text.length ++ crlf ++ t.text ++ crlf)
  | .chunked kind cs => kind.typ :: (63 :: crlf ++ cs.flatMap encodeChunk ++ typeChunk :: 48 :: crlf)
  | .integer v => typeInteger :: (numeralInt v.toInt ++ crlf)
  | .boolean b => typeBool :: (if b then 116 else 102) :: crlf
  | .null => typeNull :: crlf
  | .oldNull asBlob => (if asBlob then typeBlobString else typeArray) :: (numeralInt (-1) ++ crlf)
  | .aggregate kind s es =>
    kind.typ :: (header s (elemCount kind.isMap es.length) ++ encodeElems es ++ trailer s)
  | .attribute s es next =>
    typeAttribute :: (header s (elemCount true es.length) ++ encodeElems es ++ trailer s) ++
      encode next

def encodeElems : List Wire → Bytes
  | [] => []
  | e :: es => encode e ++ encodeElems es

end

mutual

/-- The message a wire form stands for, when `attrs` came in front of it. -/
def messageWith : Wire → Option RedisMessage → RedisMessage
  | .line kind t, attrs => { ({} : RedisMessage).setString t.text with typ := kind.typ, attrs := attrs }
  | .blob kind t, attrs => { ({} : RedisMessage).setString t.text with typ := kind.typ, attrs := attrs }
  | .chunked kind cs, attrs =>
    { ({} : RedisMessage).setString (cs.flatMap (·.text)) with typ := kind.typ, attrs := attrs }
  | .integer v, attrs => { intlen := v, typ := typeInteger, attrs := attrs }
  | .boolean b, attrs => { intlen := if b then 1 else 0, typ := typeBool, attrs := attrs }
  | .null, attrs => { typ := typeNull, attrs := attrs }
  | .oldNull _, _ => { typ := typeNull }
  | .aggregate kind _ es, attrs =>
    { ({} : RedisMessage).setValues (messages es) with typ := kind.typ, attrs := attrs }
  | .attribute _ es next, _ =>
    messageWith next
      (some { ({} : RedisMessage).setValues (messages es) with typ := typeAttribute })

def messages : List Wire → List RedisMessage
  | [] => []
  | e :: es => messageWith e none :: messages es

end

def message (w : Wire) : RedisMessage := w.messageWith none

def typ : Wire → UInt8
  | .line kind _ => kind.typ
  | .blob kind _ => kind.typ
  | .chunked kind _ => kind.typ
  | .integer _ => typeInteger
  | .boolean _ => typeBool
  | .null => typeNull
  | .oldNull _ => typeNull
  | .aggregate kind _ _ => kind.typ
  | .attribute _ _ next => next.typ

theorem messageWith_typ (w : Wire) (attrs : Option RedisMessage) :
    (w.messageWith attrs).typ = w.typ := by
  match w with
  | .line _ _ | .blob _ _ | .chunked _ _ | .integer _ | .boolean _ | .null | .oldNull _
  | .aggregate _ _ _ => rw [messageWith, typ]
  | .attribute _ es next =>
    rw [messageWith, typ]
    exact messageWith_typ next _

def takesAttrs : Wire → Bool
  | .oldNull _ => false
  | _ => true

mutual

/-- The elements are as many as a slice can have, and a map has a value for every key. -/
def Valid : Wire → Prop
  | .aggregate kind _ es => es.length ≤ maxMessages ∧ (kind.isMap → Even es.length) ∧ ValidElems es
  | .attribute _ es next =>
    es.length ≤ maxMessages ∧ Even es.length ∧ ValidElems es ∧ next.takesAttrs ∧ next.Valid
  | _ => True

def ValidElems : List Wire → Prop
  | [] => True
  | e :: es => e.Valid ∧ ValidElems es

end

theorem encodeElems_eq_flatMap (es : List Wire) : encodeElems es = es.flatMap encode := by
  induction es with
  | nil => rfl
  | cons e es ih => rw [encodeElems, ih, List.flatMap_cons]

theorem encodeElems_append (es es' : List Wire) :
    encodeElems (es ++ es') = encodeElems es ++ encodeElems es' := by
  simp only [encodeElems_eq_flatMap, List.flatMap_append]

theorem messages_eq_map (es : List Wire) : messages es = es.map message := by
  induction es with
  | nil => rfl
  | cons e es ih => rw [messages, ih, List.map_cons, message]

theorem validElems_iff (es : List Wire) : ValidElems es ↔ ∀ e ∈ es, e.Valid := by
  induction es with
  | nil => simp [ValidElems]
  | cons e es ih => rw [ValidElems, ih, List.forall_mem_cons]

end Wire

structure PushForm where
  wire : Wire
  valid : wire.Valid
  push : wire.typ = typePush

structure ReplyForm where
  wire : Wire
  valid : wire.Valid
  notPush : wire.typ ≠ typePush

def encodePushes (ps : List PushForm) : Bytes := ps.flatMap (·.wire.encode)

end Rueidis
