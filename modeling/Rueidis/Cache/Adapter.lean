import Rueidis.Cache.Contract
import Rueidis.Cache.Lru
import Rueidis.Library.Machine

/-!
# The adapter of a simple cache

`NewSimpleCacheAdapter` makes a `CacheStore` of a cache with get, set, delete and flush.  The values
are in that cache, under the key and the command written one after the other.  The adapter has the
requests that are out, and for each value a nil marker in the place of its request, by which `Delete`
finds it.
-/

namespace Rueidis

open Option AList

structure SimpleCache (σ : Type) where
  get : σ → Bytes → RedisMessage
  set : σ → Bytes → RedisMessage → σ
  del : σ → Bytes → σ
  flush : σ → σ

/-- It behaves as the map `view`; the empty message stands for nothing. -/
structure SimpleCache.IsMap {σ : Type} (sc : SimpleCache σ) (view : σ → Bytes → Option RedisMessage) :
    Prop where
  get : ∀ s k, sc.get s k = (view s k).getD {}
  set : ∀ s k v k', view (sc.set s k v) k' = if k' = k then some v else view s k'
  del : ∀ s k k', view (sc.del s k) k' = if k' = k then none else view s k'
  flush : ∀ s k, view (sc.flush s) k = none

def mapCache : SimpleCache (Bytes → Option RedisMessage) where
  get s k := (s k).getD {}
  set s k v k' := if k' = k then some v else s k'
  del s k k' := if k' = k then none else s k'
  flush _ _ := none

theorem mapCache_isMap : mapCache.IsMap fun s => s :=
  ⟨fun _ _ => rfl, fun _ _ _ _ => rfl, fun _ _ _ => rfl, fun _ _ => rfl⟩

structure AdapterEntry where
  err : Option Err := none
  val : RedisMessage := {}
  xat : Int64 := 0
deriving Inhabited

def AdapterEntry.wait (e : AdapterEntry) : RedisMessage × Option Err := (e.val, e.err)

/-- The expiry of a value, and the value with it: the server's may only shorten the client's. -/
def AdapterEntry.stamped (e : AdapterEntry) (val : RedisMessage) : Int64 × RedisMessage :=
  let sxat := val.getExpireAt
  if e.xat < sxat ∨ sxat = 0 then (e.xat, val.setExpireAt e.xat) else (sxat, val)

/-- The entries of one key; `none` is a nil marker. -/
abbrev EntryMap := AList fun _ : Bytes => Option Nat

/-- `flights` is `none` for nil, after `Close`. -/
structure Adapter (σ : Type) where
  store : σ
  flights : Option (AList fun _ : Bytes => EntryMap)
  entries : Heap AdapterEntry

def newSimpleCacheAdapter {σ : Type} (store : σ) : Adapter σ := ⟨store, some ∅, .empty⟩

namespace Adapter

variable {σ : Type} (sc : SimpleCache σ)

def entry (a : Adapter σ) (id : Nat) : AdapterEntry := a.entries.get id

/-- `a.flights[key]`, also of a nil map. -/
def entriesOf (a : Adapter σ) (key : Bytes) : Option EntryMap := a.flights.bind (·.lookup key)

/-- The place of `a.flights[key][cmd]`, which may have a nil marker. -/
def marker (a : Adapter σ) (key cmd : Bytes) : Option (Option Nat) :=
  (a.entriesOf key).bind (·.lookup cmd)

def flightAt (a : Adapter σ) (key cmd : Bytes) : Option Nat := (a.marker key cmd).join

/-- `a.flights[key][cmd] = m`, where `a.flights[key]` is made when there is none. -/
def setMarker (a : Adapter σ) (key cmd : Bytes) (m : Option Nat) : Adapter σ :=
  { a with flights := a.flights.map fun fs =>
      fs.insert key (((fs.lookup key).getD ∅).insert cmd m) }

inductive Found where
  | hit (v : RedisMessage)
  | waits (id : Nat)
  | nothing

def look (a : Adapter σ) (key cmd : Bytes) (now : Int) : Found :=
  let v := sc.get a.store (key ++ cmd)
  if v.typ ≠ 0 ∧ 0 < v.relativePTTL now then .hit v
  else (a.flightAt key cmd).elim .nothing .waits

def openFlight (a : Adapter σ) (key cmd : Bytes) (ttl now : Int) : Adapter σ × Found :=
  match a.flightAt key cmd with
  | some id => (a, .waits id)
  | none =>
    if a.flights.isNone then (a, .nothing)
    else
      ({ a.setMarker key cmd (some a.entries.next) with
          entries := a.entries.alloc { xat := unixMilli (now + ttl) } }, .nothing)

/-- `Flight`: the value, empty for a miss, and the entry to wait for. -/
def flight (a : Adapter σ) (key cmd : Bytes) (ttl now : Int) :
    Adapter σ × RedisMessage × Option Nat :=
  match a.look sc key cmd now with
  | .hit v => (a, v, none)
  | .waits id => (a, {}, some id)
  | .nothing =>
    match a.openFlight key cmd ttl now with
    | (a, .waits id) => (a, {}, some id)
    | (a, _) => (a, {}, none)

/-- `adapterEntry.set`, which also closes the channel. -/
def setEntry (a : Adapter σ) (id : Nat) (val : RedisMessage) (err : Option Err) : Adapter σ :=
  { a with entries := a.entries.set id { a.entry id with err := err, val := val } }

def update (a : Adapter σ) (key cmd : Bytes) (val : RedisMessage) :
    Adapter σ × Int64 × Option Nat :=
  match a.flightAt key cmd with
  | none => (a, 0, none)
  | some id =>
    let (sxat, val) := (a.entry id).stamped val
    let a := { a with store := sc.set a.store (key ++ cmd) val }
    ((a.setEntry id val none).setMarker key cmd none, sxat, some id)

def cancel (a : Adapter σ) (key cmd : Bytes) (err : Err) : Adapter σ × Option Nat :=
  match a.flightAt key cmd with
  | none => (a, none)
  | some id => ((a.setEntry id {} (some err)).setMarker key cmd none, some id)

/-- The loop of `del`, over the commands that the key had. -/
def delLoop (key : Bytes) : σ → EntryMap → List (Sigma fun _ : Bytes => Option Nat) → σ × EntryMap
  | s, es, [] => (s, es)
  | s, es, ⟨cmd, e⟩ :: cmds =>
    match e with
    | none => delLoop key (sc.del s (key ++ cmd)) (es.erase cmd) cmds
    | some _ => delLoop key s es cmds

def del (a : Adapter σ) (key : Bytes) : Adapter σ :=
  match a.entriesOf key with
  | none => a
  | some es =>
    let (store, es') := delLoop sc key a.store es es.entries
    { a with
      store := store
      flights := a.flights.map fun fs =>
        if es'.entries = [] then fs.erase key else fs.insert key es' }

/-- `none` is a nil slice. -/
def delete (a : Adapter σ) : Option (List RedisMessage) → Adapter σ
  | none => (a.flights.getD ∅).keys.foldl (del sc) a
  | some keys => keys.foldl (fun a k => a.del sc k.string) a

/-- The section of `Close`, with the entries it sets after it has unlocked. -/
def close (a : Adapter σ) : Adapter σ × List Nat :=
  ({ a with flights := none, store := sc.flush a.store },
    (a.flights.getD ∅).entries.flatMap fun kv => kv.2.entries.filterMap (·.2))

/-! ## The places -/

variable {a : Adapter σ} {key cmd : Bytes}

theorem marker_setMarker (hopen : a.flights.isSome) (m : Option Nat) (key' cmd' : Bytes) :
    (a.setMarker key cmd m).marker key' cmd' =
      if key' = key ∧ cmd' = cmd then some m else a.marker key' cmd' := by
  obtain ⟨fs, hfs⟩ := isSome_iff_exists.mp hopen
  unfold marker entriesOf setMarker
  rw [hfs]
  show ((fs.insert key _).lookup key').bind _ = if _ then some m else (fs.lookup key').bind _
  by_cases hkey : key' = key
  · subst hkey
    rw [lookup_insert, bind_some]
    by_cases hcmd : cmd' = cmd
    · subst hcmd
      rw [if_pos ⟨rfl, rfl⟩, lookup_insert]
    · rw [if_neg fun h => hcmd h.2, lookup_insert_ne hcmd]
      cases fs.lookup key' with
      | none => exact lookup_empty cmd'
      | some es => rfl
  · rw [if_neg fun h => hkey h.1, lookup_insert_ne hkey]

theorem isSome_setMarker (a : Adapter σ) (key cmd : Bytes) (m : Option Nat) :
    (a.setMarker key cmd m).flights.isSome = a.flights.isSome := isSome_map

theorem flightAt_eq_some {id : Nat} :
    a.flightAt key cmd = some id ↔ a.marker key cmd = some (some id) := join_eq_some_iff

theorem isSome_of_marker {m : Option Nat} (h : a.marker key cmd = some m) : a.flights.isSome := by
  unfold marker entriesOf at h
  cases hfs : a.flights <;> rw [hfs] at h
  · cases h
  · rfl

theorem look_eq_hit {now : Int} {v : RedisMessage} (h : a.look sc key cmd now = .hit v) :
    v = sc.get a.store (key ++ cmd) ∧ v.typ ≠ 0 ∧ 0 < v.relativePTTL now := by
  unfold look at h
  dsimp only at h
  split at h
  next hlive =>
    cases h
    exact ⟨rfl, hlive⟩
  · cases hf : a.flightAt key cmd <;> rw [hf] at h <;> cases h

theorem look_eq_waits {now : Int} {id : Nat} (h : a.look sc key cmd now = .waits id) :
    a.flightAt key cmd = some id := by
  unfold look at h
  dsimp only at h
  split at h
  · cases h
  · cases hf : a.flightAt key cmd <;> rw [hf] at h <;> cases h
    rfl

inductive Opened (a : Adapter σ) (key cmd : Bytes) (ttl now : Int) : Adapter σ × Found → Prop where
  | waits (id : Nat) (h : a.flightAt key cmd = some id) : Opened a key cmd ttl now (a, .waits id)
  | closed (hclosed : a.flights = none) : Opened a key cmd ttl now (a, .nothing)
  | opened (hopen : a.flights.isSome) (hnone : a.flightAt key cmd = none) :
      Opened a key cmd ttl now
        ({ a.setMarker key cmd (some a.entries.next) with
            entries := a.entries.alloc { xat := unixMilli (now + ttl) } }, .nothing)

theorem openFlight_cases (a : Adapter σ) (key cmd : Bytes) (ttl now : Int) :
    Opened a key cmd ttl now (a.openFlight key cmd ttl now) := by
  unfold openFlight
  cases hf : a.flightAt key cmd with
  | some id => exact .waits id hf
  | none =>
    cases hfs : a.flights with
    | none => exact .closed hfs
    | some fs => exact .opened (by rw [hfs]; rfl) hf

/-! ## Delete -/

theorem lookup_delLoop (cmds : List (Sigma fun _ : Bytes => Option Nat)) (s : σ) (es : EntryMap)
    (cmd : Bytes) : (delLoop sc key s es cmds).2.lookup cmd =
      if ⟨cmd, none⟩ ∈ cmds then none else es.lookup cmd := by
  induction cmds generalizing s es with
  | nil => rfl
  | cons p cmds ih =>
    obtain ⟨cmd', e⟩ := p
    cases e <;> rw [delLoop, ih]
    · by_cases hcmd : cmd = cmd'
      · subst hcmd
        rw [lookup_erase, if_pos List.mem_cons_self, ite_self]
      · simp [lookup_erase_ne hcmd, hcmd]
    · simp

theorem marker_del (key key' cmd : Bytes) (a : Adapter σ) :
    (a.del sc key).marker key' cmd =
      if key' = key ∧ a.marker key' cmd = some none then none else a.marker key' cmd := by
  unfold del
  cases hes : a.entriesOf key with
  | none =>
    -- the key has no places at all
    rw [if_neg]
    rintro ⟨rfl, hm⟩
    simp [marker, hes] at hm
  | some es =>
    have hmap : ∀ cmd, (delLoop sc key a.store es es.entries).2.lookup cmd =
        if es.lookup cmd = some none then none else es.lookup cmd := by
      intro cmd
      rw [lookup_delLoop]
      simp only [mem_lookup_iff.symm, mem_def]
    dsimp only
    generalize (delLoop sc key a.store es es.entries).1 = store
    generalize (delLoop sc key a.store es es.entries).2 = es' at hmap ⊢
    unfold entriesOf at hes
    cases hfs : a.flights with
    | none => simp [hfs] at hes
    | some fs =>
      have hes : fs.lookup key = some es := by simpa [hfs] using hes
      unfold marker entriesOf
      rw [hfs]
      show ((if es'.entries = [] then fs.erase key else fs.insert key es').lookup key').bind
          (·.lookup cmd) =
        if key' = key ∧ (fs.lookup key').bind (·.lookup cmd) = some none then none
        else (fs.lookup key').bind (·.lookup cmd)
      by_cases hkey : key' = key
      · subst hkey
        rw [hes, bind_some]
        simp only [true_and]
        by_cases hempty : es'.entries = []
        · -- the last command is gone, and the key with it
          rw [if_pos hempty, lookup_erase, bind_none, ← hmap]
          exact ((lookup_eq_none).mpr fun hmem => by
            rw [mem_keys, keys, hempty] at hmem
            cases hmem).symm
        · rw [if_neg hempty, lookup_insert, bind_some, hmap]
      · rw [if_neg fun h : key' = key ∧ _ => hkey h.1]
        split
        · rw [lookup_erase_ne hkey]
        · rw [lookup_insert_ne hkey]

theorem entries_del (key : Bytes) (a : Adapter σ) : (a.del sc key).entries = a.entries := by
  unfold del
  cases a.entriesOf key <;> rfl

theorem isSome_del (key : Bytes) (a : Adapter σ) :
    (a.del sc key).flights.isSome = a.flights.isSome := by
  unfold del
  cases a.entriesOf key with
  | none => rfl
  | some es => exact isSome_map

theorem marker_delKeys (keys : List Bytes) (a : Adapter σ) (key cmd : Bytes) :
    (keys.foldl (del sc) a).marker key cmd =
      if key ∈ keys ∧ a.marker key cmd = some none then none else a.marker key cmd := by
  induction keys generalizing a with
  | nil =>
    rw [if_neg fun h => List.not_mem_nil h.1]
    rfl
  | cons k keys ih =>
    rw [List.foldl_cons, ih, marker_del]
    by_cases hm : a.marker key cmd = some none
    · by_cases hk : key = k <;> simp [hk]
    · simp [hm]

theorem delete_named (keys : List RedisMessage) (a : Adapter σ) :
    a.delete sc (some keys) = (keys.map RedisMessage.string).foldl (del sc) a := List.foldl_map.symm

theorem mem_keys_of_marker {m : Option Nat} (h : a.marker key cmd = some m) :
    key ∈ (a.flights.getD ∅).keys := by
  obtain ⟨es, hes, -⟩ := bind_eq_some_iff.mp h
  obtain ⟨fs, hfs, hes⟩ := bind_eq_some_iff.mp hes
  rw [hfs, ← mem_keys, ← lookup_isSome, getD_some, hes]
  rfl

theorem marker_delete (keys : Option (List RedisMessage)) (a : Adapter σ) (key cmd : Bytes) :
    (Covers keys key ∧ a.marker key cmd = some none → (a.delete sc keys).marker key cmd = none) ∧
      (¬ (Covers keys key ∧ a.marker key cmd = some none) →
        (a.delete sc keys).marker key cmd = a.marker key cmd) := by
  cases keys with
  | none =>
    show (True ∧ _ → ((a.flights.getD ∅).keys.foldl (del sc) a).marker key cmd = none) ∧
      (¬ (True ∧ _) → ((a.flights.getD ∅).keys.foldl (del sc) a).marker key cmd = _)
    rw [marker_delKeys]
    exact ⟨fun h => if_pos ⟨mem_keys_of_marker h.2, h.2⟩, fun h => if_neg fun h' => h ⟨trivial, h'.2⟩⟩
  | some keys =>
    have hcovers : Covers (some keys) key ↔ key ∈ keys.map RedisMessage.string :=
      List.mem_map.symm
    rw [delete_named, marker_delKeys, hcovers]
    exact ⟨fun h => if_pos h, fun h => if_neg h⟩

theorem delete_frame (keys : Option (List RedisMessage)) (a : Adapter σ) :
    (a.delete sc keys).entries = a.entries ∧
      (a.delete sc keys).flights.isSome = a.flights.isSome := by
  have hfold : ∀ ks : List Bytes, (ks.foldl (del sc) a).entries = a.entries ∧
      (ks.foldl (del sc) a).flights.isSome = a.flights.isSome := by
    intro ks
    induction ks generalizing a with
    | nil => exact ⟨rfl, rfl⟩
    | cons k ks ih =>
      rw [List.foldl_cons, (ih _).1, (ih _).2, entries_del, isSome_del]
      exact ⟨rfl, rfl⟩
  cases keys with
  | none => exact hfold _
  | some keys =>
    rw [delete_named]
    exact hfold _

end Adapter

end Rueidis
