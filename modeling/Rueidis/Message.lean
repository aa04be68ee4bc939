import Mathlib.Algebra.Ring.Nat
import Mathlib.Data.List.Basic

/-!
# Redis messages, results and errors

The reply value `RedisMessage` with the accessors the client reads it through, the result pair a
call returns, and the Go errors that the client tells apart.  Go strings are byte strings.
-/

namespace Rueidis

abbrev Bytes := List UInt8

def lit (s : String) : Bytes := s.toUTF8.data.toList

structure Panic where
  text : String
deriving DecidableEq, Repr

def indexOutOfRange : Panic := ⟨"runtime error: index out of range"⟩
def nilDereference : Panic := ⟨"runtime error: invalid memory address or nil pointer dereference"⟩
def lenOutOfRange : Panic := ⟨"runtime error: makeslice: len out of range"⟩

/-- The most bytes that the runtime allocates at once, on 64-bit platforms. -/
def maxAlloc : Nat := 2 ^ 48

/-- The most messages in a slice.  A message takes 40 bytes: three pointers, a number, and one word
for the type and the expiry. -/
def maxMessages : Nat := maxAlloc / 40

/-- The lengths for which `make` returns a slice, of which there can be at most `limit` elements; it
panics for all others. -/
def Makes (limit : Nat) (length : Int64) : Prop := 0 ≤ length ∧ length.toNatClampNeg ≤ limit

instance (limit : Nat) (length : Int64) : Decidable (Makes limit length) :=
  inferInstanceAs (Decidable (_ ∧ _))

theorem lt_of_le_maxAlloc {n : Nat} (hn : n ≤ maxAlloc) : n < 2 ^ 63 :=
  Nat.lt_of_le_of_lt hn (by decide)

theorem le_maxAlloc_of_le_maxMessages {n : Nat} (hn : n ≤ maxMessages) : n ≤ maxAlloc :=
  Nat.le_trans hn (by decide)

theorem makes_ofNat {limit n : Nat} (hn : n ≤ limit) (hlimit : n ≤ maxAlloc) :
    Makes limit (Int64.ofNat n) := by
  have hlt := lt_of_le_maxAlloc hlimit
  constructor
  · rw [Int64.le_iff_toInt_le, Int64.toInt_ofNat_of_lt hlt]
    simp
  · rw [Int64.toNatClampNeg_ofNat_of_lt hlt]
    exact hn

/-! ## Wire types -/

def typeBlobString : UInt8 := 36
def typeSimpleString : UInt8 := 43
def typeSimpleErr : UInt8 := 45
def typeInteger : UInt8 := 58
def typeNull : UInt8 := 95
def typeEnd : UInt8 := 46
def typeFloat : UInt8 := 44
def typeBool : UInt8 := 35
def typeBlobErr : UInt8 := 33
def typeVerbatimString : UInt8 := 61
def typeBigNumber : UInt8 := 40
def typeArray : UInt8 := 42
def typeMap : UInt8 := 37
def typeSet : UInt8 := 126
def typeAttribute : UInt8 := 124
def typePush : UInt8 := 62
def typeChunk : UInt8 := 59

def typeNames (typ : UInt8) : String :=
  if typ = typeBlobString then "blob string"
  else if typ = typeSimpleString then "simple string"
  else if typ = typeSimpleErr then "simple error"
  else if typ = typeInteger then "int64"
  else if typ = typeNull then "null"
  else if typ = typeFloat then "float64"
  else if typ = typeBool then "boolean"
  else if typ = typeBlobErr then "blob error"
  else if typ = typeVerbatimString then "verbatim string"
  else if typ = typeBigNumber then "big number"
  else if typ = typeArray then "array"
  else if typ = typeMap then "map"
  else if typ = typeSet then "set"
  else if typ = typeAttribute then "attribute"
  else if typ = typePush then "push"
  else if typ = typeEnd then "null"
  else ""

/-! ## Messages -/

/-- A reply. `bytes` and `array` are `none` for a Go nil pointer; `intlen` holds a number, or the
length of the text or of the elements.  `ttl` is the client side expiry in milliseconds. -/
structure RedisMessage where
  attrs : Option RedisMessage := none
  bytes : Option Bytes := none
  array : Option (List RedisMessage) := none
  intlen : Int64 := 0
  typ : UInt8 := 0
  ttl : BitVec 56 := 0
deriving Repr, Inhabited

mutual

def RedisMessage.decEq : (a b : RedisMessage) → Decidable (a = b)
  | ⟨a₁, b₁, r₁, i₁, t₁, x₁⟩, ⟨a₂, b₂, r₂, i₂, t₂, x₂⟩ =>
    match decEqAttrs a₁ a₂, decEqArray r₁ r₂, decEq (b₁, i₁, t₁, x₁) (b₂, i₂, t₂, x₂) with
    | isTrue ha, isTrue hr, isTrue hs => isTrue (by simp_all)
    | isFalse ha, _, _ => isFalse (by simp_all)
    | _, isFalse hr, _ => isFalse (by simp_all)
    | _, _, isFalse hs => isFalse (by simp_all)
termination_by structural a => a

def decEqAttrs : (a b : Option RedisMessage) → Decidable (a = b)
  | none, none => isTrue rfl
  | some _, none => isFalse (by simp)
  | none, some _ => isFalse (by simp)
  | some x, some y =>
    match RedisMessage.decEq x y with
    | isTrue h => isTrue (by rw [h])
    | isFalse h => isFalse (by simpa using h)
termination_by structural a => a

def decEqArray : (a b : Option (List RedisMessage)) → Decidable (a = b)
  | none, none => isTrue rfl
  | some _, none => isFalse (by simp)
  | none, some _ => isFalse (by simp)
  | some xs, some ys =>
    match decEqElems xs ys with
    | isTrue h => isTrue (by rw [h])
    | isFalse h => isFalse (by simpa using h)
termination_by structural a => a

def decEqElems : (a b : List RedisMessage) → Decidable (a = b)
  | [], [] => isTrue rfl
  | _ :: _, [] => isFalse (by simp)
  | [], _ :: _ => isFalse (by simp)
  | x :: xs, y :: ys =>
    match RedisMessage.decEq x y, decEqElems xs ys with
    | isTrue h, isTrue hs => isTrue (by rw [h, hs])
    | isFalse h, _ => isFalse (by simp_all)
    | _, isFalse hs => isFalse (by simp_all)
termination_by structural a => a

end

instance : DecidableEq RedisMessage := RedisMessage.decEq

namespace RedisMessage

def string (m : RedisMessage) : Bytes := m.bytes.getD []

def values (m : RedisMessage) : List RedisMessage := m.array.getD []

def setString (m : RedisMessage) (s : Bytes) : RedisMessage :=
  { m with bytes := some s, intlen := Int64.ofNat s.length }

def setValues (m : RedisMessage) (vs : List RedisMessage) : RedisMessage :=
  { m with array := some vs, intlen := Int64.ofNat vs.length }

def getExpireAt (m : RedisMessage) : Int64 := Int64.ofNat m.ttl.toNat

def setExpireAt (m : RedisMessage) (pttl : Int64) : RedisMessage :=
  { m with ttl := BitVec.ofInt 56 pttl.toInt }

def isNil (m : RedisMessage) : Bool := m.typ == typeNull

def isArray (m : RedisMessage) : Bool := m.typ == typeArray || m.typ == typeSet

end RedisMessage

def cacheMark : RedisMessage := {}

/-! ## Errors -/

/-- The Go errors that the client distinguishes; a nil `error` is `none`. -/
inductive Err where
  /-- The shared `Nil`, which every null message reports. -/
  | nil
  /-- A `*RedisError`: an error reply with its text. -/
  | redis (m : RedisMessage)
  | parse (text : String)
  | connExpired
  | closing
  | doCacheAborted
  | canceled
  | deadlineExceeded
  | other (text : String)
deriving DecidableEq, Repr

def Err.isRedisError : Err → Bool
  | .nil => true
  | .redis _ => true
  | _ => false

def errParse : String := "rueidis: parse error"

def trimErr (s : Bytes) : Bytes :=
  if (lit "ERR ").isPrefixOf s then s.drop (lit "ERR ").length else s

namespace RedisMessage

def error (m : RedisMessage) : Option Err :=
  if m.typ = typeNull then some .nil
  else if m.typ = typeSimpleErr ∨ m.typ = typeBlobErr then
    some (.redis (m.setString (trimErr m.string)))
  else none

def toArray (m : RedisMessage) : Except Err (List RedisMessage) :=
  if m.isArray then .ok m.values
  else match m.error with
    | some err => .error err
    | none =>
      .error (.parse (errParse ++ ": redis message type " ++ typeNames m.typ ++
        " is not a array"))

theorem error_eq_none_of_isArray {m : RedisMessage} (h : m.isArray = true) : m.error = none := by
  unfold isArray at h
  rw [Bool.or_eq_true, beq_iff_eq, beq_iff_eq] at h
  unfold error
  rcases h with h | h <;> rw [h] <;> rfl

theorem toArray_of_isArray {m : RedisMessage} (h : m.isArray = true) :
    m.toArray = .ok m.values := by
  unfold toArray
  rw [if_pos h]

end RedisMessage

/-! ## Error replies -/

def splitLastColon (s : Bytes) : Option (Bytes × Bytes) :=
  match s.reverse.splitAt (s.reverse.idxOf 58) with
  | (_, []) => none
  | (port, _ :: host) => some (host.reverse, port.reverse)

def joinHostPort (host port : Bytes) : Bytes :=
  if host.contains 58 then lit "[" ++ host ++ lit "]:" ++ port else host ++ lit ":" ++ port

def fixIPv6HostPort (addr : Bytes) : Bytes :=
  if !addr.contains 46 && addr.headD 91 != 91 then
    match splitLastColon addr with
    | some (host, port) => joinHostPort host port
    | none => addr
  else addr

/-- An error text that starts with `word` names an address in field `field`; the code indexes the
split text without a check. -/
def redirectAddr (word : Bytes) (field : Nat) (s : Bytes) : Except Panic (Option Bytes) :=
  if word.isPrefixOf s then
    match (s.splitOn 32)[field]? with
    | some addr => .ok (some (fixIPv6HostPort addr))
    | none => .error indexOutOfRange
  else .ok none

def isMoved (m : RedisMessage) : Except Panic (Option Bytes) := redirectAddr (lit "MOVED") 2 m.string
def isAsk (m : RedisMessage) : Except Panic (Option Bytes) := redirectAddr (lit "ASK") 2 m.string

def isTryAgain (m : RedisMessage) : Bool := (lit "TRYAGAIN").isPrefixOf m.string
def isLoading (m : RedisMessage) : Bool := (lit "LOADING").isPrefixOf m.string
def isClusterDown (m : RedisMessage) : Bool := (lit "CLUSTERDOWN").isPrefixOf m.string

/-! ## Results -/

structure RedisResult where
  err : Option Err := none
  val : RedisMessage := {}
deriving DecidableEq, Repr, Inhabited

def newResult (val : RedisMessage) (err : Option Err) : RedisResult := ⟨err, val⟩
def newErrorResult (err : Option Err) : RedisResult := ⟨err, {}⟩

namespace RedisResult

def nonRedisError (r : RedisResult) : Option Err := r.err

def error (r : RedisResult) : Option Err :=
  match r.err with
  | some e => some e
  | none => r.val.error

def toArray (r : RedisResult) : Except Err (List RedisMessage) :=
  match r.err with
  | some e => .error e
  | none => r.val.toArray

end RedisResult

end Rueidis
