import Rueidis.Library.Faults
import Rueidis.Message

/-!
# Conversions of a reply

The methods index the elements of the message, in pairs or with a stride they guess, and Go faults on
an index outside a slice.  Of a conversion that returns an error only the error is kept, not the value
returned beside it.
-/

namespace Rueidis

open Faults

abbrev Conv := Fallible Err Panic

/-- The number parsers of Go's standard library, which give a value beside an error. -/
structure Strconv (F : Type) where
  parseInt : Bytes → Int64 × Option Err
  parseUint : Bytes → UInt64 × Option Err
  parseFloat : Bytes → F × Option Err
  nan : F
  zero : F

abbrev GoMap (α : Type) := List (Bytes × α)

def GoMap.set {α : Type} (r : GoMap α) (k : Bytes) (v : α) : GoMap α :=
  (k, v) :: r.filter fun e => e.1 != k

def Strconv.toFloat64 {F : Type} (conv : Strconv F) (s : Bytes) : F × Option Err :=
  if (conv.parseFloat s).2.isSome ∧ s = lit "-nan" then (conv.nan, none) else conv.parseFloat s

def orErr {α : Type} (r : α × Option Err) : Except Err α :=
  match r.2 with
  | some err => .error err
  | none => .ok r.1

def wrongType {α : Type} (typ : UInt8) (why : String) : Except Err α :=
  .error (.parse (errParse ++ ": redis message type " ++ typeNames typ ++ why))

def wantedTwo {α : Type} (got : Nat) : Conv α :=
  .error (.err (.other ("got " ++ toString got ++ ", wanted 2")))

abbrev pairs {σ : Type} : (σ → RedisMessage → Conv RedisMessage → Conv σ) →
    σ → List RedisMessage → Conv σ :=
  eachPair indexOutOfRange

variable {F : Type}

namespace RedisMessage

/-! ## Single values -/

def isInt64 (m : RedisMessage) : Bool := m.typ == typeInteger
def isFloat64 (m : RedisMessage) : Bool := m.typ == typeFloat
def isString (m : RedisMessage) : Bool := m.typ == typeBlobString || m.typ == typeSimpleString
def isMap (m : RedisMessage) : Bool := m.typ == typeMap

def checked (m : RedisMessage) : Conv Unit :=
  match m.error with
  | some err => .error (.err err)
  | none => .ok ()

def toStr (m : RedisMessage) : Except Err Bytes :=
  if m.isString then .ok m.string
  else if m.isInt64 || m.array.isSome then wrongType m.typ " is not a string"
  else match m.error with
    | some err => .error err
    | none => .ok m.string

def asInt64 (conv : Strconv F) (m : RedisMessage) : Int64 × Option Err :=
  if m.isInt64 then (m.intlen, none)
  else match m.toStr with
    | .ok v => conv.parseInt v
    | .error err => (0, some err)

def asUint64 (conv : Strconv F) (m : RedisMessage) : Except Err UInt64 :=
  if m.isInt64 then .ok m.intlen.toUInt64
  else m.toStr >>= fun v => orErr (conv.parseUint v)

def asFloat64 (conv : Strconv F) (m : RedisMessage) : Except Err F :=
  if m.isFloat64 then orErr (conv.toFloat64 m.string)
  else m.toStr >>= fun v => orErr (conv.toFloat64 v)

def asStrSlice (m : RedisMessage) : Except Err (List Bytes) :=
  m.toArray >>= fun values => .ok (values.map string)

end RedisMessage

/-! ## Maps -/

def toMap : List RedisMessage → Conv (GoMap RedisMessage) :=
  pairs (fun r k next =>
    if k.typ = typeBlobString ∨ k.typ = typeSimpleString then
      next >>= fun v => .ok (r.set k.string v)
    else lift (wrongType k.typ " as map key is not supported")) []

namespace RedisMessage

def toMap (m : RedisMessage) : Conv (GoMap RedisMessage) :=
  if m.isMap then Rueidis.toMap m.values
  else m.checked >>= fun _ => lift (wrongType m.typ " is not a RESP3 map")

/-- `AsMap`, `AsStrMap` and `AsIntMap` check the message in the same way and then go over its
pairs. -/
def asPairs {β : Type} (f : List RedisMessage → Conv β) (m : RedisMessage) : Conv β :=
  m.checked >>= fun _ =>
    if (m.isMap || m.isArray) && m.values.length % 2 == 0 then f m.values
    else lift (wrongType m.typ " is not a map/array/set or its length is not even")

def asMap : RedisMessage → Conv (GoMap RedisMessage) := asPairs Rueidis.toMap

def asStrMap : RedisMessage → Conv (GoMap Bytes) :=
  asPairs (pairs (fun r k next => next >>= fun v => .ok (r.set k.string v.string)) [])

def asIntMap (conv : Strconv F) : RedisMessage → Conv (GoMap Int64) :=
  asPairs (pairs (fun r k next => next >>= fun v =>
    if k.typ = typeBlobString ∨ k.typ = typeSimpleString then
      if v.string ≠ [] then lift (orErr (conv.parseInt v.string)) >>= fun n => .ok (r.set k.string n)
      else if v.typ = typeInteger ∨ v.typ = typeNull then .ok (r.set k.string v.intlen)
      else .ok r
    else .ok r) [])

end RedisMessage

/-! ## Streams -/

/-- A nil map is `none`. -/
structure XRangeEntry where
  id : Bytes
  fieldValues : Option (GoMap Bytes)

structure XRangeFieldValue where
  field : Bytes
  value : Bytes

structure XRangeSlice where
  id : Bytes
  fieldValues : List XRangeFieldValue

namespace RedisMessage

def asXRangeEntry (m : RedisMessage) : Conv XRangeEntry :=
  lift m.toArray >>= fun values =>
    match values with
    | [first, second] =>
      lift first.toStr >>= fun id =>
        match second.asStrMap with
        | .error (.err .nil) => .ok ⟨id, none⟩
        | fieldValues => fieldValues >>= fun fieldValues => .ok ⟨id, some fieldValues⟩
    | _ => wantedTwo values.length

def asXRange (m : RedisMessage) : Conv (List XRangeEntry) :=
  lift m.toArray >>= fun values => values.mapM asXRangeEntry

def fieldValue (fieldArray : List RedisMessage) (i : Nat) : Conv XRangeFieldValue :=
  get indexOutOfRange fieldArray (i * 2) >>= fun field =>
    get indexOutOfRange fieldArray (i * 2 + 1) >>= fun value => .ok ⟨field.string, value.string⟩

def asXRangeSlice (m : RedisMessage) : Conv XRangeSlice :=
  lift m.toArray >>= fun values =>
    match values with
    | [first, second] =>
      lift first.toStr >>= fun id =>
        match second.toArray with
        | .error .nil => .ok ⟨id, []⟩
        | .error err => .error (.err err)
        | .ok fieldArray =>
          (List.range (fieldArray.length / 2)).mapM (fieldValue fieldArray) >>= fun fields =>
            .ok ⟨id, fields⟩
    | _ => wantedTwo values.length

def asXRangeSlices (m : RedisMessage) : Conv (List XRangeSlice) :=
  lift m.toArray >>= fun values => values.mapM asXRangeSlice

/-- `AsXRead` and `AsXReadSlices` differ in how they convert the entries of one stream.  The map
branch does not look at the number of elements. -/
def asStreams {β : Type} (entries : RedisMessage → Conv β) (m : RedisMessage) : Conv (GoMap β) :=
  m.checked >>= fun _ =>
    if m.isMap then
      pairs (fun ret k next => next >>= fun v => entries v >>= fun es => .ok (ret.set k.string es))
        [] m.values
    else if m.isArray then
      m.values.foldlM (fun ret v =>
        match v.isArray, v.values with
        | true, [key, stream] => entries stream >>= fun es => .ok (ret.set key.string es)
        | _, values => wantedTwo values.length) []
    else lift (wrongType m.typ " is not a map/array/set")

def asXRead : RedisMessage → Conv (GoMap (List XRangeEntry)) := asStreams asXRange
def asXReadSlices : RedisMessage → Conv (GoMap (List XRangeSlice)) := asStreams asXRangeSlices

end RedisMessage

/-! ## Sorted sets, scans and pops -/

structure ZScore (F : Type) where
  member : Bytes
  score : F

structure ScanEntry where
  elements : List Bytes
  cursor : UInt64

structure KeyValues (α : Type) where
  key : Bytes
  values : List α

def toZScore (conv : Strconv F) (values : List RedisMessage) : Except Err (ZScore F) :=
  match values with
  | [member, score] =>
    member.toStr >>= fun member => score.asFloat64 conv >>= fun score => .ok ⟨member, score⟩
  | _ => .error (.other "redis message is not a map/array/set or its length is not 2")

/-- `arr[j : j+2]`. -/
def slicePair (arr : List RedisMessage) (j : Nat) : Conv (List RedisMessage) :=
  if j + 2 ≤ arr.length then .ok ((arr.drop j).take 2)
  else .error (.panic ⟨"runtime error: slice bounds out of range"⟩)

namespace RedisMessage

def asZScores (conv : Strconv F) (m : RedisMessage) : Conv (List (ZScore F)) :=
  lift m.toArray >>= fun arr =>
    if arr.head?.any isArray then arr.mapM fun v => lift (toZScore conv v.values)
    else (List.range (arr.length / 2)).mapM fun i =>
      slicePair arr (i * 2) >>= fun values => lift (toZScore conv values)

def asScanEntry (conv : Strconv F) (m : RedisMessage) : Conv ScanEntry :=
  lift m.toArray >>= fun msgs =>
    match msgs with
    | first :: second :: _ =>
      lift (first.asUint64 conv) >>= fun cursor =>
        lift second.asStrSlice >>= fun elements => .ok ⟨elements, cursor⟩
    | _ => lift (wrongType m.typ " is not a scan response or its length is not at least 2")

/-- `AsLMPop` and `AsZMPop`: a key and its values. -/
def asPop {α : Type} (f : RedisMessage → Conv (List α)) (why : String) (m : RedisMessage) :
    Conv (KeyValues α) :=
  m.checked >>= fun _ =>
    match m.values with
    | key :: values :: _ => f values >>= fun values => .ok ⟨key.string, values⟩
    | _ => lift (wrongType m.typ why)

def asLMPop : RedisMessage → Conv (KeyValues Bytes) :=
  asPop (fun values => lift values.asStrSlice) " is not a LMPOP response"

def asZMPop (conv : Strconv F) : RedisMessage → Conv (KeyValues (ZScore F)) :=
  asPop (asZScores conv) " is not a ZMPOP response"

end RedisMessage

/-! ## Searches -/

structure FtSearchDoc (F : Type) where
  doc : Option (GoMap Bytes) := none
  key : Bytes := []
  score : F

/-- What a search returns: a total and one `δ` for each record. -/
structure FtReply (δ : Type) where
  total : Int64 := 0
  docs : List δ := []

/-- `AsStrMap` with its error ignored: a nil map stands for it. -/
def strMapOrNil (v : RedisMessage) : Conv (Option (GoMap Bytes)) :=
  ignored none (some <$> v.asStrMap)

def ftSearchField (conv : Strconv F) (doc : FtSearchDoc F) (k : RedisMessage)
    (next : Conv RedisMessage) : Conv (FtSearchDoc F) :=
  if k.string = lit "id" then next >>= fun v => .ok { doc with key := v.string }
  else if k.string = lit "extra_attributes" then
    next >>= fun v => strMapOrNil v >>= fun attrs => .ok { doc with doc := attrs }
  else if k.string = lit "score" then
    next >>= fun v => .ok { doc with score := (conv.parseFloat v.string).1 }
  else .ok doc

def ftSearchRecord (conv : Strconv F) (record : RedisMessage) : Conv (FtSearchDoc F) :=
  pairs (ftSearchField conv) { score := conv.zero } record.values

def ftAggregateField (doc : Option (GoMap Bytes)) (k : RedisMessage) (next : Conv RedisMessage) :
    Conv (Option (GoMap Bytes)) :=
  if k.string = lit "extra_attributes" then next >>= strMapOrNil
  else .ok doc

def ftAggregateRecord (record : RedisMessage) : Conv (Option (GoMap Bytes)) :=
  pairs ftAggregateField none record.values

def ftError {δ : Type} (s : FtReply δ) (v : RedisMessage) : Conv (FtReply δ) :=
  match v.values with
  | e :: _ => .error (.err (.redis e))
  | [] => .ok s

/-- One pair of the RESP3 reply of a search, whose records `record` converts. -/
def ftPair {δ : Type} (record : RedisMessage → Conv δ) (s : FtReply δ) (k : RedisMessage)
    (next : Conv RedisMessage) : Conv (FtReply δ) :=
  if k.string = lit "total_results" then next >>= fun v => .ok { s with total := v.intlen }
  else if k.string = lit "results" then
    next >>= fun v => v.values.mapM record >>= fun docs => .ok { s with docs := docs }
  else if k.string = lit "error" then next >>= ftError s
  else .ok s

/-- Whether the flat reply carries scores, and whether it carries attributes, guessed from its third
and fourth element. -/
def ftLayout (conv : Strconv F) (values : List RedisMessage) : Bool × Bool :=
  let third := match values with
    | _ :: one :: two :: _ =>
      if two.string = [] then (false, true)
      else ((conv.parseFloat one.string).2.isSome && (conv.parseFloat two.string).2.isNone, false)
    | _ => (false, false)
  match values with
  | _ :: _ :: _ :: three :: _ => (third.1, third.2 || three.string == [])
  | _ => third

/-- The documents of the flat reply from its second element on: a key, then a score with `wscore`,
then the attributes with `wattrs`; the elements after the key are read without a check. -/
def ftDocs (conv : Strconv F) (wscore wattrs : Bool) :
    List RedisMessage → Conv (List (FtSearchDoc F))
  | [] => .ok []
  | key :: rest =>
    match wscore, wattrs, rest with
    | false, false, rest =>
      (List.cons ⟨none, key.string, conv.zero⟩) <$> ftDocs conv wscore wattrs rest
    | true, false, score :: rest =>
      (List.cons ⟨none, key.string, (conv.parseFloat score.string).1⟩) <$>
        ftDocs conv wscore wattrs rest
    | false, true, attrs :: rest =>
      strMapOrNil attrs >>= fun attrs =>
        (List.cons ⟨attrs, key.string, conv.zero⟩) <$> ftDocs conv wscore wattrs rest
    | true, true, score :: attrs :: rest =>
      strMapOrNil attrs >>= fun attrs =>
        (List.cons ⟨attrs, key.string, (conv.parseFloat score.string).1⟩) <$>
          ftDocs conv wscore wattrs rest
    | _, _, _ => .error (.panic indexOutOfRange)

namespace RedisMessage

def asFtSearch (conv : Strconv F) (m : RedisMessage) : Conv (FtReply (FtSearchDoc F)) :=
  m.checked >>= fun _ =>
    if m.isMap then pairs (ftPair (ftSearchRecord conv)) {} m.values
    else match m.values with
      | total :: rest =>
        (FtReply.mk total.intlen) <$>
          ftDocs conv (ftLayout conv m.values).1 (ftLayout conv m.values).2 rest
      | [] => lift (wrongType m.typ " is not a FT.SEARCH response")

def asFtAggregate (m : RedisMessage) : Conv (FtReply (Option (GoMap Bytes))) :=
  m.checked >>= fun _ =>
    if m.isMap then pairs (ftPair ftAggregateRecord) {} m.values
    else match m.values with
      | total :: rest => (FtReply.mk total.intlen) <$> rest.mapM strMapOrNil
      | [] => lift (wrongType m.typ " is not a FT.AGGREGATE response")

def withCursor (m : RedisMessage) : Option (RedisMessage × RedisMessage) :=
  match m.isArray, m.values with
  | true, [reply, cursor] => if reply.isArray || reply.isMap then some (reply, cursor) else none
  | _, _ => none

def asFtAggregateCursor (m : RedisMessage) : Conv (Int64 × FtReply (Option (GoMap Bytes))) :=
  match m.withCursor with
  | some (reply, cursor) => (Prod.mk cursor.intlen) <$> reply.asFtAggregate
  | none => (Prod.mk 0) <$> m.asFtAggregate

end RedisMessage

/-! ## Geo searches -/

structure GeoLocation (F : Type) where
  name : Bytes
  longitude : F
  latitude : F
  dist : F
  geoHash : Int64 := 0

def geoDist (conv : Strconv F) : List RedisMessage → Except Err (F × List RedisMessage)
  | v :: info =>
    if v.string ≠ [] then orErr (conv.toFloat64 v.string) >>= fun dist => .ok (dist, info)
    else .ok (conv.zero, v :: info)
  | [] => .ok (conv.zero, [])

def geoHash : List RedisMessage → Int64 × List RedisMessage
  | v :: info => if v.isInt64 then (v.intlen, info) else (0, v :: info)
  | [] => (0, [])

def floatOf (conv : Strconv F) (v : RedisMessage) : F :=
  if v.isFloat64 then (conv.toFloat64 v.string).1
  else match v.toStr with
    | .ok s => (conv.toFloat64 s).1
    | .error _ => conv.zero

/-- The coordinates, when the next element has elements; `n` is the number that the error text
names. -/
def geoCoord (conv : Strconv F) (n : Nat) : List RedisMessage → Except Err (F × F)
  | v :: _ =>
    if v.array.isSome then
      match v.values with
      | longitude :: latitude :: _ =>
        .ok (floatOf conv longitude, floatOf conv latitude)
      | _ => .error (.other ("got " ++ toString n ++ ", expected 2"))
    else .ok (conv.zero, conv.zero)
  | [] => .ok (conv.zero, conv.zero)

def geoLocation (conv : Strconv F) (v : RedisMessage) : Conv (GeoLocation F) :=
  if v.isString then .ok ⟨v.string, conv.zero, conv.zero, conv.zero, 0⟩
  else match v.values with
    | [] => .error (.panic indexOutOfRange)
    | name :: info =>
      lift (geoDist conv info) >>= fun dist =>
        lift (geoCoord conv v.values.length (geoHash dist.2).2) >>= fun coord =>
          .ok ⟨name.string, coord.1, coord.2, dist.1, (geoHash dist.2).1⟩

def RedisMessage.asGeosearch (conv : Strconv F) (m : RedisMessage) : Conv (List (GeoLocation F)) :=
  lift m.toArray >>= fun arr => arr.mapM (geoLocation conv)

/-! ## Any value -/

inductive AnyVal (F : Type) where
  | nil
  | float (v : F)
  | string (s : Bytes)
  | bool (b : Bool)
  | int (n : Int64)
  | map (entries : List (Bytes × AnyVal F))
  | list (elems : List (AnyVal F))
  | err (e : Err)

def anyElem : Conv (AnyVal F) → Conv (AnyVal F)
  | .error (.err .nil) => .ok .nil
  | .error (.err e) => .ok (.err e)
  | x => x

mutual

def RedisMessage.toAny (conv : Strconv F) : RedisMessage → Conv (AnyVal F)
  | ⟨attrs, bytes, array, intlen, typ, ttl⟩ =>
    (RedisMessage.mk attrs bytes array intlen typ ttl).checked >>= fun _ =>
      if typ = typeFloat then AnyVal.float <$> lift (orErr (conv.toFloat64 (bytes.getD [])))
      else if typ = typeBlobString ∨ typ = typeSimpleString ∨ typ = typeVerbatimString ∨
        typ = typeBigNumber then .ok (.string (bytes.getD []))
      else if typ = typeBool then .ok (.bool (intlen == 1))
      else if typ = typeInteger then .ok (.int intlen)
      else if typ = typeMap then AnyVal.map <$> anyMap conv array
      else if typ = typeSet ∨ typ = typeArray then AnyVal.list <$> anyList conv array
      else lift (wrongType typ " is not a supported in ToAny")
termination_by structural m => m

def anyMap (conv : Strconv F) : Option (List RedisMessage) → Conv (GoMap (AnyVal F))
  | none => .ok []
  | some vs => anyPairs conv [] vs
termination_by structural vs => vs

def anyPairs (conv : Strconv F) (r : GoMap (AnyVal F)) :
    List RedisMessage → Conv (GoMap (AnyVal F))
  | [] => .ok r
  | [_] => .error (.panic indexOutOfRange)
  | k :: v :: rest =>
    anyElem (v.toAny conv) >>= fun a => anyPairs conv (r.set k.string a) rest
termination_by structural vs => vs

def anyList (conv : Strconv F) : Option (List RedisMessage) → Conv (List (AnyVal F))
  | none => .ok []
  | some vs => anyElems conv vs
termination_by structural vs => vs

def anyElems (conv : Strconv F) : List RedisMessage → Conv (List (AnyVal F))
  | [] => .ok []
  | v :: rest =>
    anyElem (v.toAny conv) >>= fun a => anyElems conv rest >>= fun as => .ok (a :: as)
termination_by structural vs => vs

end

/-! ## All of them -/

inductive Accessor where
  | toMap | toAny | asMap | asStrMap | asIntMap | asXRead | asXReadSlices | asXRangeSlice
  | asZScores | asScanEntry | asLMPop | asZMPop | asFtSearch | asFtAggregate
  | asFtAggregateCursor | asGeosearch
deriving DecidableEq, Repr

/-- The accessor indexes outside the elements of some message when called on `m`. -/
def Accessor.panics (conv : Strconv F) (m : RedisMessage) : Accessor → Bool
  | .toMap => Faults.panics m.toMap
  | .toAny => Faults.panics (m.toAny conv)
  | .asMap => Faults.panics m.asMap
  | .asStrMap => Faults.panics m.asStrMap
  | .asIntMap => Faults.panics (m.asIntMap conv)
  | .asXRead => Faults.panics m.asXRead
  | .asXReadSlices => Faults.panics m.asXReadSlices
  | .asXRangeSlice => Faults.panics m.asXRangeSlice
  | .asZScores => Faults.panics (m.asZScores conv)
  | .asScanEntry => Faults.panics (m.asScanEntry conv)
  | .asLMPop => Faults.panics m.asLMPop
  | .asZMPop => Faults.panics (m.asZMPop conv)
  | .asFtSearch => Faults.panics (m.asFtSearch conv)
  | .asFtAggregate => Faults.panics m.asFtAggregate
  | .asFtAggregateCursor => Faults.panics m.asFtAggregateCursor
  | .asGeosearch => Faults.panics (m.asGeosearch conv)

/-! ## Messages as the reader builds them -/

def simpleString (s : String) : RedisMessage :=
  RedisMessage.setString { typ := typeSimpleString } (lit s)
def arrayOf (vs : List RedisMessage) : RedisMessage := RedisMessage.setValues { typ := typeArray } vs
def mapOf (vs : List RedisMessage) : RedisMessage := RedisMessage.setValues { typ := typeMap } vs
def integer (n : Int64) : RedisMessage := { typ := typeInteger, intlen := n }

end Rueidis
