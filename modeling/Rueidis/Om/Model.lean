import Rueidis.Message
import Rueidis.Library.Decimal
import Rueidis.Library.Double
import Rueidis.Library.Machine
import Rueidis.Library.VersionedCell

/-!
# The object mapping repositories

`om/hash.go` and `om/json.go`: `Save` with the two save scripts, and `Fetch`.  A version travels as
text, and the script adds one to it as a Lua number.

What depends on the fields of the entity's type is left open in `Schema`: the texts the converters give
and the reading back of them.
-/

namespace Rueidis.Om

open Decimal

/-! ## Numbers as text -/

def formatInt (n : Int) : Bytes := numeralInt n

/-- `strconv.ParseInt(text, 10, 64)`, with the text of the error. -/
def parseInt (text : Bytes) : Int × Option String :=
  match readInt text with
  | none => (0, some "invalid syntax")
  | some n =>
    if n < -9223372036854775808 then (-9223372036854775808, some "value out of range")
    else if 9223372036854775807 < n then (9223372036854775807, some "value out of range")
    else (n, none)

/-- `tonumber` for the texts of integers, which are the only ones the scripts get. -/
def tonumber (text : Bytes) : Option Int := (readInt text).map Double.nearest

/-- `tostring` of an integral number: the format is `%.14g`. -/
def tostring (x : Int) : Bytes :=
  if x < 0 then 45 :: general 14 x.natAbs else general 14 x.natAbs

/-! ## Entities -/

/-- A schema with a version field: names are those of the fields in the hash. -/
structure Schema (F : Type) where
  key : Bytes
  ver : Bytes
  others : F → List (Bytes × Bytes)
  /-- `FromHash` for those fields; `none` is an error of a converter. -/
  read : (Bytes → Option Bytes) → Option F
  extVal : F → Int
  ver_ne_nil : ver ≠ []
  key_ne_ver : key ≠ ver

structure Entity (F : Type) where
  key : Bytes
  ver : Int
  fields : F
deriving DecidableEq

def key (pre id : Bytes) : Bytes := pre ++ lit ":" ++ id

structure LuaExec (A : Type) where
  keys : List Bytes
  args : A

inductive Reply where
  | text (str : Bytes)
  | nil
  | error (message : String)
deriving DecidableEq, Repr

def errVersionMismatch : String := "object version mismatched, please retry"

def errEmptyHashRecord : String := "hash object not found"

def afterSave {F : Type} (entity : Entity F) : Reply → Entity F × Option String
  | .nil => (entity, some errVersionMismatch)
  | .error message => (entity, some message)
  | .text str => ({ entity with ver := (parseInt str).1 }, none)

/-! ## The hash repository -/

structure HashRecord where
  fields : List (Bytes × Bytes) := []
  expireAt : Option Bytes := none
deriving DecidableEq, Repr

def HashRecord.put (fields : List (Bytes × Bytes)) (p : Bytes × Bytes) : List (Bytes × Bytes) :=
  p :: fields.filter fun q => q.1 ≠ p.1

def HashRecord.pairs : List Bytes → List (Bytes × Bytes)
  | k :: v :: argv => (k, v) :: pairs argv
  | _ => []

/-- `HSET` refuses an odd number of arguments, and none at all. -/
def HashRecord.hset (argv : List Bytes) (fields : List (Bytes × Bytes)) :
    Option (List (Bytes × Bytes)) :=
  if argv = [] ∨ argv.length % 2 = 1 then none else some ((pairs argv).foldl put fields)

namespace Schema

variable {F : Type} (S : Schema F)

def toHash (entity : Entity F) : List (Bytes × Bytes) :=
  (S.key, entity.key) :: (S.ver, formatInt entity.ver) :: S.others entity.fields

def rest (entity : Entity F) : List (Bytes × Bytes) := (S.toHash entity).filter fun p => p.1 ≠ S.ver

/-- `toExec` of the hash repository; `order` is the order in which the map is gone through. -/
def hashToExec (pre : Bytes) (entity : Entity F) (order : List (Bytes × Bytes)) :
    LuaExec (List Bytes) :=
  { keys := [Om.key pre (((S.toHash entity).lookup S.key).getD [])]
    args := [S.ver, ((S.toHash entity).lookup S.ver).getD []] ++ order.flatMap (fun p => [p.1, p.2]) ++
      if S.extVal entity.fields ≠ 0 then [formatInt (S.extVal entity.fields)] else [] }

def fromHash (record : HashRecord) : Except String (Entity F) :=
  if record.fields.length = 0 then .error errEmptyHashRecord
  else
    let ver := match record.fields.lookup S.ver with
      | none => (0, none)
      | some v => parseInt v
    match ver.2, S.read fun name => record.fields.lookup name with
    | some message, _ => .error message
    | none, none => .error "unable to convert a field"
    | none, some fields =>
      .ok { key := (record.fields.lookup S.key).getD [], ver := ver.1, fields := fields }

end Schema

def takeExpiry (argv : List Bytes) : List Bytes × Option Bytes :=
  if argv.length % 2 = 1 then (argv.dropLast, argv.getLast?) else (argv, none)

def HashRecord.write (argv : List Bytes) (record : HashRecord) : Option HashRecord :=
  let (argv, e) := takeExpiry argv
  (hset argv record.fields).map fun fields =>
    { fields := fields, expireAt := e.or record.expireAt }

def hashSaveScript (argv : List Bytes) (record : HashRecord) : HashRecord × Reply :=
  match argv with
  | name :: ver :: rest =>
    if name = [] then
      match record.write (name :: ver :: rest) with
      | none => (record, .error "wrong number of arguments")
      | some record => (record, .text ver)
    else
      let v := record.fields.lookup name
      if v = none ∨ v = some ver then
        match tonumber ver with
        | none => (record, .error "attempt to perform arithmetic on a nil value")
        | some n =>
          let ver := tostring (Double.nearest (n + 1))
          match record.write (name :: ver :: rest) with
          | none => (record, .error "wrong number of arguments")
          | some record => (record, .text ver)
      else (record, .nil)
  | _ => (record, .error "wrong number of arguments")

/-! ## The JSON repository -/

/-- The document under the key; the encoding of an entity is read by the server as the entity. -/
structure JsonRecord (F : Type) where
  doc : Option (Entity F) := none
  expireAt : Option Bytes := none

structure JsonArgs (F : Type) where
  name : Bytes
  ver : Bytes
  json : Entity F
  ext : Option Bytes

def Schema.jsonToExec {F : Type} (S : Schema F) (pre : Bytes) (entity : Entity F) :
    LuaExec (JsonArgs F) :=
  { keys := [Om.key pre entity.key]
    args :=
      { name := S.ver
        ver := formatInt entity.ver
        json := entity
        ext := if S.extVal entity.fields ≠ 0
          then some (formatInt (S.extVal entity.fields)) else none } }

/-- `JSON.GET` and `JSON.NUMINCRBY` of the version field. -/
def jsonSaveScript {F : Type} (args : JsonArgs F) (record : JsonRecord F) : JsonRecord F × Reply :=
  if args.name = [] then
    ({ doc := some args.json, expireAt := args.ext.or record.expireAt }, .text args.ver)
  else
    let v := record.doc.map fun doc => formatInt doc.ver
    if v = none ∨ v = some args.ver then
      ({ doc := some { args.json with ver := args.json.ver + 1 }
         expireAt := args.ext.or record.expireAt }, .text (formatInt (args.json.ver + 1)))
    else (record, .nil)

def jsonFetch {F : Type} (record : JsonRecord F) : Except String (Entity F) :=
  match record.doc with
  | none => .error "redis nil message"
  | some doc => .ok doc

/-! ## Clients -/

/-- What clients use of a repository, for one key: the arguments of the script for an entity and an
order of its map, the script, and `Fetch`; and the version that is stored. -/
structure Repository (F R A : Type) where
  toExec : Entity F → List (Bytes × Bytes) → Option A
  save : A → R → R × Reply
  fetch : R → Except String (Entity F)
  version : R → Option Int

/-- The map of an entity may be gone through in any order; entities under other keys are not saved
here. -/
def hashRepository {F : Type} (S : Schema F) (pre id : Bytes) :
    Repository F HashRecord (List Bytes) where
  toExec entity order :=
    if order.isPerm (S.rest entity) ∧ (S.hashToExec pre entity order).keys = [key pre id] then
      some (S.hashToExec pre entity order).args
    else none
  save := hashSaveScript
  fetch := S.fromHash
  version record := (record.fields.lookup S.ver).map fun v => (parseInt v).1

def jsonRepository {F : Type} (S : Schema F) (pre id : Bytes) :
    Repository F (JsonRecord F) (JsonArgs F) where
  toExec entity _ :=
    if (S.jsonToExec pre entity).keys = [key pre id] then some (S.jsonToExec pre entity).args else none
  save := jsonSaveScript
  fetch := jsonFetch
  version record := record.doc.map fun doc => doc.ver

inductive Call (F A : Type) where
  | idle
  | sent (entity : Entity F) (args : A)
  | replied (entity : Entity F) (reply : Reply) (attempt : VersionedCell.Attempt)

structure Client (F A : Type) where
  entity : Option (Entity F) := none
  call : Call F A := .idle

structure Returned where
  attempt : VersionedCell.Attempt
  err : Option String
  ver : Int
deriving DecidableEq, Repr

structure System (F R A : Type) where
  record : R
  clients : Nat → Client F A := fun _ => {}
  log : List VersionedCell.Attempt := []
  returned : List Returned := []

inductive Step (F : Type) where
  | assign (c : Nat) (entity : Entity F)
  | fetch (c : Nat)
  | save (c : Nat) (order : List (Bytes × Bytes))
  | exec (c : Nat)
  | receive (c : Nat)

namespace Repository

variable {F R A : Type} (repo : Repository F R A)

def step (s : System F R A) : Step F → Option (System F R A)
  | .assign c entity =>
    match (s.clients c).call with
    | .idle => some { s with clients := Function.update s.clients c { entity := some entity } }
    | _ => none
  | .fetch c =>
    match (s.clients c).call with
    | .idle => some { s with
        clients := Function.update s.clients c { entity := (repo.fetch s.record).toOption } }
    | _ => none
  | .save c order =>
    match (s.clients c).call, (s.clients c).entity with
    | .idle, some entity =>
      (repo.toExec entity order).map fun args =>
        let client : Client F A := { entity := some entity, call := .sent entity args }
        { s with clients := Function.update s.clients c client }
    | _, _ => none
  | .exec c =>
    match (s.clients c).call with
    | .sent entity args =>
      let r := repo.save args s.record
      let attempt : VersionedCell.Attempt :=
        { offered := entity.ver
          before := repo.version s.record
          after := repo.version r.1
          succeeded := match r.2 with
            | .text _ => true
            | _ => false }
      let client : Client F A := { entity := some entity, call := .replied entity r.2 attempt }
      some { s with
        record := r.1
        clients := Function.update s.clients c client
        log := s.log ++ [attempt] }
    | _ => none
  | .receive c =>
    match (s.clients c).call with
    | .replied entity reply attempt =>
      let r := afterSave entity reply
      some { s with
        clients := Function.update s.clients c { entity := some r.1 }
        returned := s.returned ++ [{ attempt := attempt, err := r.2, ver := r.1.ver }] }
    | _ => none

end Repository

def InRange {F R A : Type} (s : System F R A) : Step F → Prop
  | .save c _ => ∀ entity ∈ (s.clients c).entity, 0 ≤ entity.ver ∧ entity.ver < 10 ^ 14 - 1
  | _ => True

instance decidableInRange {F R A : Type} (s : System F R A) (a : Step F) : Decidable (InRange s a) :=
  match a with
  | .save c _ => inferInstanceAs
      (Decidable (∀ entity ∈ (s.clients c).entity, 0 ≤ entity.ver ∧ entity.ver < 10 ^ 14 - 1))
  | .assign _ _ => inferInstanceAs (Decidable True)
  | .fetch _ => inferInstanceAs (Decidable True)
  | .exec _ => inferInstanceAs (Decidable True)
  | .receive _ => inferInstanceAs (Decidable True)

end Rueidis.Om
