import Rueidis.Commands
import Rueidis.Library.Heap
import Mathlib.Data.List.AList

/-!
# The client side cache

The store `lru`: a two-level map from keys and cache commands to entries, a list of the entries in
the order of their last use, and the number of bytes they take.  An entry without a value is
pending: the call that missed has sent its request, and others wait for the reply.  Each operation
is given by its sections under the mutex.
-/

namespace Rueidis

/-! ## Times and sizes -/

def unixMilli (t : Int) : Int64 := Int64.ofInt (t / 1000000)

namespace RedisMessage

def relativePTTL (m : RedisMessage) (now : Int) : Int64 := m.getExpireAt - unixMilli now

def structSize : Nat := 40

mutual

def approximateSize : RedisMessage → Nat
  | ⟨_, bytes, array, _, _, _⟩ => structSize + (bytes.getD []).length + sizeOfArray array

def sizeOfArray : Option (List RedisMessage) → Nat
  | none => 0
  | some ms => sizeOfValues ms

def sizeOfValues : List RedisMessage → Nat
  | [] => 0
  | m :: ms => m.approximateSize + sizeOfValues ms

end

end RedisMessage

/-! ## The store -/

abbrev StringMap := AList fun _ : Bytes => Nat

/-- The entries of one key; `cache` points to entries. -/
structure KeyCache where
  cache : StringMap := ∅
  key : Bytes := []
  hits : UInt32 := 0
deriving Inhabited

structure CacheEntry where
  err : Option Err := none
  kc : Nat := 0
  cmd : Bytes := []
  val : RedisMessage := {}
  size : Int := 0
deriving Inhabited

def CacheEntry.pending (e : CacheEntry) : Prop := e.val.typ = 0

instance (e : CacheEntry) : Decidable e.pending := inferInstanceAs (Decidable (_ = _))

def CacheEntry.wait (e : CacheEntry) : RedisMessage × Option Err := (e.val, e.err)

/-- `store` and `list` are `none` for nil, after `Close`; the list has the entry that was used last
at its end. -/
structure Lru where
  entries : Heap CacheEntry
  kcs : Heap KeyCache
  store : Option StringMap
  list : Option (List Nat)
  size : Int
  max : Int

def newLRU (max : Int) : Lru := ⟨.empty, .empty, some ∅, some [], 0, max⟩

def moveThreshold : UInt32 := 1024 - 1

/-- The sizes of an entry, of its key cache and of its list element with the pointers to them, and
of two strings, on a 64-bit platform. -/
def entryBaseSize : Nat := (40 + 104 + 48 + 16 * 2) * 3 / 2

namespace Lru

def entry (c : Lru) (id : Nat) : CacheEntry := c.entries.get id

def kc (c : Lru) (k : Nat) : KeyCache := c.kcs.get k

def keyCache (c : Lru) (key : Bytes) : Option Nat := c.store.bind (·.lookup key)

def elem (c : Lru) (key cmd : Bytes) : Option Nat :=
  (c.keyCache key).bind fun k => (c.kc k).cache.lookup cmd

def setEntry (c : Lru) (id : Nat) (e : CacheEntry) : Lru :=
  { c with entries := c.entries.set id e }

/-- `list.MoveToBack`, which does nothing for an element that was removed. -/
def moveToBack (c : Lru) (id : Nat) : Lru :=
  { c with list := c.list.map fun l => if id ∈ l then l.erase id ++ [id] else l }

def hit (c : Lru) (k : Nat) : Lru :=
  { c with kcs := c.kcs.set k { c.kc k with hits := (c.kc k).hits + 1 } }

/-- Remove an entry from its key cache and from the list, and the key cache when that was its last
entry. -/
def unlink (c : Lru) (key : Bytes) (k : Nat) (cmd : Bytes) (id : Nat) : Lru :=
  let cache := (c.kc k).cache.erase cmd
  { c with
    kcs := c.kcs.set k { c.kc k with cache := cache }
    store := if cache.entries = [] then c.store.map (·.erase key) else c.store
    list := c.list.map (·.erase id) }

def drop (c : Lru) (key : Bytes) (k : Nat) (cmd : Bytes) (id : Nat) : Lru :=
  { c.unlink key k cmd id with size := c.size - (c.entry id).size }

/-! ## Flight -/

def Live (v : RedisMessage) (now : Int) : Prop := v.typ = 0 ∨ 0 < v.relativePTTL now

instance (v : RedisMessage) (now : Int) : Decidable (Live v now) :=
  inferInstanceAs (Decidable (_ ∨ _))

def look (c : Lru) (key cmd : Bytes) (now : Int) : Option (Nat × Nat × RedisMessage) := do
  let k ← c.keyCache key
  let id ← (c.kc k).cache.lookup cmd
  let v := (c.entry id).val
  if Live v now then some (k, id, v) else none

def push (c : Lru) (k : Nat) (cmd : Bytes) (ttl now : Int) : Lru :=
  let v := ({} : RedisMessage).setExpireAt (unixMilli (now + ttl))
  { c with
    entries := c.entries.alloc { cmd := cmd, kc := k, val := v }
    kcs := c.kcs.set k { c.kc k with cache := (c.kc k).cache.insert cmd c.entries.next }
    list := c.list.map (· ++ [c.entries.next]) }

def ensureKey (c : Lru) (key : Bytes) : Lru × Nat :=
  match c.keyCache key with
  | some k => (c, k)
  | none =>
    ({ c with
        kcs := c.kcs.alloc { key := key }
        store := c.store.map (·.insert key c.kcs.next) }, c.kcs.next)

inductive Looked where
  | value (id : Nat) (v : RedisMessage)
  | opened (id : Nat)
  | closed
deriving DecidableEq, Repr

def openFlight (c : Lru) (key cmd : Bytes) (ttl now : Int) : Lru × Looked :=
  if c.store.isNone then (c, .closed)
  else
    let (c, k) := c.ensureKey key
    match (c.kc k).cache.lookup cmd with
    | some id =>
      let e := c.entry id
      if Live e.val now then ((c.hit k).moveToBack id, .value id e.val)
      else
        -- the expired entry is replaced
        let c : Lru := { c with list := c.list.map (·.erase id), size := c.size - e.size }
        (c.push k cmd ttl now, .opened c.entries.next)
    | none => (c.push k cmd ttl now, .opened c.entries.next)

/-- `Flight`: the value, empty for a miss and without a type while it is pending, and the entry. -/
def flight (c : Lru) (key cmd : Bytes) (ttl now : Int) : Lru × RedisMessage × Option Nat :=
  match c.look key cmd now with
  | some (k, id, v) =>
    let back := c.list.bind (·.getLast?)
    let c := c.hit k
    if back ≠ some id ∧ (c.kc k).hits &&& moveThreshold = 0 then (c.moveToBack id, v, some id)
    else (c, v, some id)
  | none =>
    let (c, looked) := c.openFlight key cmd ttl now
    match looked with
    | .value id v => (c, v, some id)
    | .opened id => (c, (c.entry id).val, none)
    | .closed => (c, {}, none)

/-! ## Flights -/

/-- What `Flights` reports for an index: an entry to wait for, a result, or a miss. -/
inductive FlightsOut where
  | entry (id : Nat)
  | result (v : RedisMessage)
  | missed
deriving DecidableEq, Repr

def FlightsOut.ofValue (id : Nat) (v : RedisMessage) : FlightsOut :=
  if v.typ = 0 then .entry id else .result v

/-- The first section for the keys, commands and lifetimes of the batch, with the elements to
move. -/
def lookAll (now : Int) : Lru → List (Bytes × Bytes × Int) → Lru × List Nat × List FlightsOut
  | c, [] => (c, [], [])
  | c, (key, cmd, _) :: multi =>
    match c.look key cmd now with
    | some (k, id, v) =>
      let c := c.hit k
      let (c', moves, outs) := lookAll now c multi
      (c', if (c.kc k).hits &&& moveThreshold = 0 then id :: moves else moves,
        .ofValue id v :: outs)
    | none =>
      let (c', moves, outs) := lookAll now c multi
      (c', moves, .missed :: outs)

def openAll (now : Int) :
    Lru → List (Bytes × Bytes × Int) → List FlightsOut → Lru × List FlightsOut
  | c, (key, cmd, ttl) :: multi, .missed :: outs =>
    let (c, looked) := c.openFlight key cmd ttl now
    let (c, outs) := openAll now c multi outs
    match looked with
    | .value id v => (c, .ofValue id v :: outs)
    | _ => (c, .missed :: outs)
  | c, _ :: multi, out :: outs =>
    let (c, outs) := openAll now c multi outs
    (c, out :: outs)
  | c, _, _ => (c, [])

def flights (c : Lru) (now : Int) (multi : List (Bytes × Bytes × Int)) : Lru × List FlightsOut :=
  let (c, moves, outs) := lookAll now c multi
  openAll now (moves.foldl moveToBack c) multi outs

/-! ## Update and Cancel -/

def evict (c : Lru) : List Nat → Lru
  | [] => c
  | id :: ids =>
    if c.size ≤ c.max then c
    else
      let e := c.entry id
      if e.pending then evict c ids
      else evict (c.drop (c.kc e.kc).key e.kc e.cmd id) ids

/-- The value of a pending entry with its expiry: the server's may only shorten the client's. -/
def stamped (e : CacheEntry) (value : RedisMessage) : Int64 × RedisMessage :=
  let pxat := value.getExpireAt
  let cpttl := e.val.getExpireAt
  if cpttl < pxat ∨ pxat = 0 then (cpttl, value.setExpireAt cpttl) else (pxat, value)

def fill (c : Lru) (key cmd : Bytes) (id : Nat) (value : RedisMessage) : Lru :=
  let size := entryBaseSize + 2 * (key.length + cmd.length) + value.approximateSize
  { c.setEntry id { c.entry id with val := value, size := size } with size := c.size + size }

/-- The section of `Update`: the expiry, and the entry whose channel is to be closed. -/
def update (c : Lru) (key cmd : Bytes) (value : RedisMessage) : Lru × Int64 × Option Nat :=
  match c.elem key cmd with
  | none => (c, 0, none)
  | some id =>
    let e := c.entry id
    if e.pending then
      let (pxat, value) := stamped e value
      let c := c.fill key cmd id value
      (c.evict (c.list.getD []), pxat, some id)
    else (c.evict (c.list.getD []), 0, none)

/-- The section of `Cancel`, with the entry whose channel is to be closed. -/
def cancel (c : Lru) (key cmd : Bytes) (err : Err) : Lru × Option Nat :=
  match c.keyCache key with
  | none => (c, none)
  | some k =>
    match (c.kc k).cache.lookup cmd with
    | none => (c, none)
    | some id =>
      if (c.entry id).pending then
        ((c.setEntry id { c.entry id with err := some err }).unlink key k cmd id, some id)
      else (c, none)

/-! ## GetTTL, Delete and Close -/

def getTTL (c : Lru) (key cmd : Bytes) (now : Int) : Lru × Int :=
  let ttl :=
    match c.elem key cmd with
    | some id => ((c.entry id).val.relativePTTL now * 1000000).toInt
    | none => 0
  (c, if ttl ≤ 0 then -2 else ttl)

/-- Drop the values of a key; `cmds` are the commands and entries that its key cache had. -/
def purgeAll (c : Lru) (key : Bytes) (k : Nat) : List (Sigma fun _ : Bytes => Nat) → Lru
  | [] => c
  | ⟨cmd, id⟩ :: cmds =>
    if (c.entry id).pending then purgeAll c key k cmds
    else purgeAll (c.drop key k cmd id) key k cmds

def purge (c : Lru) (key : Bytes) : Option Nat → Lru
  | none => c
  | some k => c.purgeAll key k (c.kc k).cache.entries

/-- `none` is a nil slice. -/
def delete (c : Lru) : Option (List RedisMessage) → Lru
  | none => (c.store.getD ∅).entries.foldl (fun c kv => c.purge kv.1 (some kv.2)) c
  | some keys => keys.foldl (fun c k => c.purge k.string (c.keyCache k.string)) c

def pendings (c : Lru) : List Nat :=
  (c.store.getD ∅).entries.flatMap fun kv =>
    ((c.kc kv.2).cache.entries.map (·.2)).filter fun id => (c.entry id).pending

/-- The store is gone; the entries whose channels were closed get the error. -/
def close (c : Lru) (err : Err) : Lru × List Nat :=
  let ids := c.pendings
  let c := ids.foldl (fun c id => c.setEntry id { c.entry id with err := some err }) c
  ({ c with store := none, list := none }, ids)

end Lru

end Rueidis
