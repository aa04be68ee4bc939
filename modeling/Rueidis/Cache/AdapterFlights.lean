import Rueidis.Cache.Adapter
import Rueidis.Library.Buckets

/-!
# Flights of the adapter

The adapter keeps to the contract of a cache store, whatever the cache under it does.  Each section
under the mutex is one step.  `Close` sets the entries after it has unlocked, each in a step of its
own.
-/

namespace Rueidis

open History List Adapter Machine CacheEvent Heap

structure AdapterSystem (σ : Type) where
  adapter : Adapter σ
  /-- The entries that a `Close` has still to set, with its error. -/
  closing : List (Nat × Err)
  closed : List Nat
  log : List CacheEvent

inductive AdapterAct where
  /-- The section of `Flight` under the read lock. -/
  | look (key cmd : Bytes) (now : Int)
  | opens (key cmd : Bytes) (ttl now : Int)
  | update (key cmd : Bytes) (val : RedisMessage)
  | cancel (key cmd : Bytes) (err : Err)
  | delete (keys : Option (List RedisMessage))
  | close (err : Err)
  | setClosed (id : Nat) (err : Err)

variable {σ : Type} (sc : SimpleCache σ)

variable {act : AdapterAct}

def adapterStep (s : AdapterSystem σ) : AdapterAct → Option (AdapterSystem σ)
  | .look key cmd now =>
    match s.adapter.look sc key cmd now with
    | .hit v => some { s with log := s.log ++ [.hit key cmd now v] }
    | .waits id => some { s with log := s.log ++ [.waits key cmd id] }
    | .nothing => some s
  | .opens key cmd ttl now =>
    match s.adapter.openFlight key cmd ttl now with
    | (a, .waits id) => some { s with adapter := a, log := s.log ++ [.waits key cmd id] }
    | (a, _) => some { s with adapter := a, log := s.log ++ [.missed key cmd ttl now] }
  | .update key cmd val =>
    let (a, _, ch) := s.adapter.update sc key cmd val
    some { s with
      adapter := a, closed := ch.toList ++ s.closed, log := s.log ++ [.updated key cmd val ch] }
  | .cancel key cmd err =>
    let (a, ch) := s.adapter.cancel key cmd err
    some { s with
      adapter := a, closed := ch.toList ++ s.closed, log := s.log ++ [.cancelled key cmd err ch] }
  | .delete keys =>
    some { s with adapter := s.adapter.delete sc keys, log := s.log ++ [.deleted keys] }
  | .close err =>
    let (a, chs) := s.adapter.close sc
    some { s with
      adapter := a, closing := chs.map (·, err) ++ s.closing, log := s.log ++ [.closed err chs] }
  | .setClosed id err =>
    if (id, err) ∈ s.closing then
      some { s with
        adapter := s.adapter.setEntry id {} (some err)
        closing := s.closing.erase (id, err), closed := id :: s.closed }
    else none

def newAdapterSystem (store : σ) : AdapterSystem σ := ⟨newSimpleCacheAdapter store, [], [], []⟩

/-- A `Flight` of the adapter is its first section, or its two sections, and the log has its
outcome. -/
theorem run_adapterFlight (s : AdapterSystem σ) (key cmd : Bytes) (ttl now : Int) :
    ∃ acts e, acts <+: [.look key cmd now, .opens key cmd ttl now] ∧
      run (adapterStep sc) s acts =
        some { s with adapter := (s.adapter.flight sc key cmd ttl now).1, log := s.log ++ [e] } ∧
      e = match (s.adapter.flight sc key cmd ttl now).2 with
        | (_, some id) => .waits key cmd id
        | (v, none) => if v.typ = 0 then .missed key cmd ttl now else .hit key cmd now v := by
  unfold flight
  cases hlook : s.adapter.look sc key cmd now with
  | hit v =>
    have hstep : adapterStep sc s (.look key cmd now) =
        some { s with log := s.log ++ [.hit key cmd now v] } := by rw [adapterStep, hlook]
    refine ⟨[.look key cmd now], _, ⟨_, rfl⟩, (run_cons_eq_some _).mpr ⟨_, hstep, rfl⟩, ?_⟩
    exact (if_neg (look_eq_hit sc hlook).2.1).symm
  | waits id =>
    have hstep : adapterStep sc s (.look key cmd now) =
        some { s with log := s.log ++ [.waits key cmd id] } := by rw [adapterStep, hlook]
    exact ⟨[.look key cmd now], _, ⟨_, rfl⟩, (run_cons_eq_some _).mpr ⟨_, hstep, rfl⟩, rfl⟩
  | nothing =>
    have hstep : adapterStep sc s (.look key cmd now) = some s := by rw [adapterStep, hlook]
    have hcases := openFlight_cases s.adapter key cmd ttl now
    have hrun : run (adapterStep sc) s [.look key cmd now, .opens key cmd ttl now] =
        adapterStep sc s (.opens key cmd ttl now) := by
      rw [run, hstep]
      dsimp only
      rw [run]
      cases adapterStep sc s (.opens key cmd ttl now) <;> rfl
    refine ⟨[.look key cmd now, .opens key cmd ttl now], ?_⟩
    rw [hrun]
    unfold adapterStep
    dsimp only
    generalize s.adapter.openFlight key cmd ttl now = r at hcases ⊢
    cases hcases <;> exact ⟨_, prefix_refl _, rfl, rfl⟩

/-! ## What a step can do -/

inductive AdapterMoved (s : AdapterSystem σ) : AdapterAct → AdapterSystem σ → Prop where
  | nothing (key cmd : Bytes) (now : Int) : AdapterMoved s (.look key cmd now) s
  | hit (key cmd : Bytes) (now : Int) (v : RedisMessage)
      (hlook : s.adapter.look sc key cmd now = .hit v) :
      AdapterMoved s (.look key cmd now) { s with log := s.log ++ [.hit key cmd now v] }
  /-- Both sections of `Flight` can end so. -/
  | waits (act : AdapterAct) (key cmd : Bytes) (id : Nat)
      (hp : s.adapter.flightAt key cmd = some id) :
      AdapterMoved s act { s with log := s.log ++ [.waits key cmd id] }
  | missed (key cmd : Bytes) (ttl now : Int) (hclosed : s.adapter.flights = none) :
      AdapterMoved s (.opens key cmd ttl now) { s with log := s.log ++ [.missed key cmd ttl now] }
  | opened (key cmd : Bytes) (ttl now : Int) (hopen : s.adapter.flights.isSome)
      (hnone : s.adapter.flightAt key cmd = none) :
      AdapterMoved s (.opens key cmd ttl now) { s with
        adapter := { s.adapter.setMarker key cmd (some s.adapter.entries.next) with
          entries := s.adapter.entries.alloc { xat := unixMilli (now + ttl) } }
        log := s.log ++ [.missed key cmd ttl now] }
  | updated (key cmd : Bytes) (val : RedisMessage) (hnone : s.adapter.flightAt key cmd = none) :
      AdapterMoved s (.update key cmd val) { s with log := s.log ++ [.updated key cmd val none] }
  | stored (key cmd : Bytes) (val : RedisMessage) (id : Nat)
      (hp : s.adapter.flightAt key cmd = some id) :
      AdapterMoved s (.update key cmd val) { s with
        adapter := (({ s.adapter with
            store := sc.set s.adapter.store (key ++ cmd) ((s.adapter.entry id).stamped val).2 } :
          Adapter σ).setEntry id ((s.adapter.entry id).stamped val).2 none).setMarker key cmd none
        closed := id :: s.closed
        log := s.log ++ [.updated key cmd val (some id)] }
  | cancelled (key cmd : Bytes) (err : Err) (hnone : s.adapter.flightAt key cmd = none) :
      AdapterMoved s (.cancel key cmd err) { s with log := s.log ++ [.cancelled key cmd err none] }
  | removed (key cmd : Bytes) (err : Err) (id : Nat) (hp : s.adapter.flightAt key cmd = some id) :
      AdapterMoved s (.cancel key cmd err) { s with
        adapter := (s.adapter.setEntry id {} (some err)).setMarker key cmd none
        closed := id :: s.closed
        log := s.log ++ [.cancelled key cmd err (some id)] }
  | deleted (keys : Option (List RedisMessage)) :
      AdapterMoved s (.delete keys) { s with
        adapter := s.adapter.delete sc keys, log := s.log ++ [.deleted keys] }
  | closed (err : Err) :
      AdapterMoved s (.close err) { s with
        adapter := (s.adapter.close sc).1
        closing := (s.adapter.close sc).2.map (·, err) ++ s.closing
        log := s.log ++ [.closed err (s.adapter.close sc).2] }
  | released (id : Nat) (err : Err) (hid : (id, err) ∈ s.closing) :
      AdapterMoved s (.setClosed id err) { s with
        adapter := s.adapter.setEntry id {} (some err)
        closing := s.closing.erase (id, err), closed := id :: s.closed }

theorem adapterStep_moved {s s' : AdapterSystem σ} (h : adapterStep sc s act = some s') :
    AdapterMoved sc s act s' := by
  unfold adapterStep at h
  cases act <;> dsimp only at h
  case look key cmd now =>
    split at h <;> cases h
    next v hlook => exact .hit key cmd now v hlook
    next id hlook => exact .waits _ key cmd id (look_eq_waits sc hlook)
    · exact .nothing key cmd now
  case opens key cmd ttl now =>
    have hcases := openFlight_cases s.adapter key cmd ttl now
    generalize s.adapter.openFlight key cmd ttl now = r at hcases h
    cases hcases <;> cases h
    case waits id hp => exact .waits _ key cmd id hp
    case closed hclosed => exact .missed key cmd ttl now hclosed
    case opened hopen hnone => exact .opened key cmd ttl now hopen hnone
  case update key cmd val =>
    unfold update at h
    cases hp : s.adapter.flightAt key cmd <;> rw [hp] at h <;> cases h
    · exact .updated key cmd val hp
    · exact .stored key cmd val _ hp
  case cancel key cmd err =>
    unfold cancel at h
    cases hp : s.adapter.flightAt key cmd <;> rw [hp] at h <;> cases h
    · exact .cancelled key cmd err hp
    · exact .removed key cmd err _ hp
  case delete keys =>
    cases h
    exact .deleted keys
  case close err =>
    cases h
    exact .closed err
  case setClosed id err =>
    split at h <;> cases h
    next hid => exact .released id err hid

/-! ## The books of the adapter -/

namespace AdapterSystem

variable {err : Err} {e : CacheEvent}

/-- What an entry has, or will have when `Close` gets to it. -/
def promise (s : AdapterSystem σ) (id : Nat) : RedisMessage × Option Err :=
  match s.closing.lookup id with
  | some err => ({}, some err)
  | none => (s.adapter.entry id).wait

def book (s : AdapterSystem σ) : FlightBook where
  closed := s.adapter.flights = none
  next := s.adapter.entries.next
  pending key cmd id := s.adapter.flightAt key cmd = some id
  wait := s.promise
  settled := s.closing.map Prod.fst ++ s.closed
  log := s.log

variable {s : AdapterSystem σ} {a : Adapter σ} {key cmd : Bytes} {id : Nat}

theorem promise_of_not_closing (s : AdapterSystem σ) (h : id ∉ s.closing.map Prod.fst) :
    s.promise id = (s.adapter.entry id).wait := by
  unfold promise
  rw [Buckets.lookup_eq_none h]

theorem promise_of_closing (s : AdapterSystem σ) (hnodup : (s.closing.map Prod.fst).Nodup)
    (h : (id, err) ∈ s.closing) : s.promise id = ({}, some err) := by
  unfold promise
  rw [Buckets.lookup_of_mem hnodup h]

theorem promise_congr {closed : List Nat} {log : List CacheEvent}
    (h : a.entry id = s.adapter.entry id) :
    promise ⟨a, s.closing, closed, log⟩ id = s.promise id := by
  unfold promise
  rw [h]

variable (h : s.book.Sound)

include h

theorem event (hentries : a.entries = s.adapter.entries)
    (hclosed : a.flights = none → s.adapter.flights = none)
    (hflight : ∀ key cmd id, a.flightAt key cmd = some id ↔ s.adapter.flightAt key cmd = some id)
    (hsettled : e.settled = []) (hmiss : ∀ key cmd, e.Misses key cmd → s.adapter.flights = none)
    (hwaits : ∀ key cmd id, e = .waits key cmd id → s.adapter.flightAt key cmd = some id)
    (hends : ∀ key cmd id, e.Ends key cmd → s.adapter.flightAt key cmd ≠ some id) :
    (book ⟨a, s.closing, s.closed, s.log ++ [e]⟩).Sound := by
  exact h.step (.event e ⟨hclosed, congrArg next hentries, hflight,
    fun id _ => promise_congr (congrArg (get · id) hentries), .refl _⟩ rfl hsettled hmiss hwaits
    hends)

theorem settle {store : σ} {val : RedisMessage} {err : Option Err}
    (hp : s.adapter.flightAt key cmd = some id) (hevent : e.settled = [id])
    (hends : ∀ key' cmd', e.Ends key' cmd' → key' = key ∧ cmd' = cmd)
    (hreleases : e.Releases key cmd id (val, err))
    (hmiss : ∀ key cmd ttl now, e ≠ .missed key cmd ttl now)
    (hwaits : ∀ key cmd id, e ≠ .waits key cmd id) :
    (book ⟨(({ s.adapter with store := store } : Adapter σ).setEntry id val err).setMarker key cmd
      none, s.closing, id :: s.closed, s.log ++ [e]⟩).Sound := by
  have hopen := isSome_of_marker (flightAt_eq_some.mp hp)
  have hnot : id ∉ s.closing.map Prod.fst ++ s.closed := fun hmem => (h.gone id hmem).2 key cmd hp
  have hplace : ∀ key' cmd' id', s.adapter.flightAt key' cmd' = some id' →
      (id' = id ↔ key' = key ∧ cmd' = cmd) := by
    intro key' cmd' id' hp'
    refine ⟨fun heq => h.place _ _ _ _ _ (heq ▸ hp') hp, ?_⟩
    rintro ⟨rfl, rfl⟩
    exact Option.some.inj (hp'.symm.trans hp)
  generalize ha : (({ s.adapter with store := store } : Adapter σ).setEntry id val err).setMarker
    key cmd none = a
  have hmarker : ∀ key' cmd', a.marker key' cmd' =
      if key' = key ∧ cmd' = cmd then some none else s.adapter.marker key' cmd' :=
    fun key' cmd' => ha ▸ marker_setMarker hopen none key' cmd'
  have hself : a.entry id = { s.adapter.entry id with err := err, val := val } :=
    ha ▸ get_set_self ..
  have hother : ∀ id' ≠ id, a.entry id' = s.adapter.entry id' :=
    fun id' hne => ha ▸ get_set_ne _ _ hne.symm
  refine h.step (.settle [id] e (nodup_singleton id) ?_ ?_ ?_ ?_ ?_ perm_middle rfl hevent
    ?_ ?_ hmiss hwaits)
  · intro id' hid'
    cases mem_singleton.mp hid'
    exact ⟨key, cmd, hp⟩
  · intro hclosed
    have hsome : a.flights.isSome = true := ha ▸ (isSome_setMarker ..).trans hopen
    rw [show a.flights = none from hclosed] at hsome
    cases hsome
  · rw [← ha]
    rfl
  · intro key' cmd' id'
    show a.flightAt key' cmd' = some id' ↔ s.adapter.flightAt key' cmd' = some id' ∧ _
    rw [flightAt_eq_some, hmarker, mem_singleton]
    by_cases hsame : key' = key ∧ cmd' = cmd
    · rw [if_pos hsame]
      exact ⟨nofun, fun hp' => absurd ((hplace _ _ _ hp'.1).mpr hsame) hp'.2⟩
    · rw [if_neg hsame, ← flightAt_eq_some]
      exact ⟨fun hp' => ⟨hp', fun hid => hsame ((hplace _ _ _ hp').mp hid)⟩, fun hp' => hp'.1⟩
  · intro id' hid'
    exact promise_congr (hother id' fun heq => hnot (heq ▸ hid'))
  · intro key' cmd' id' hid' hp'
    cases mem_singleton.mp hid'
    obtain ⟨rfl, rfl⟩ := (hplace _ _ _ hp').mp rfl
    have hpromise := promise_of_not_closing ⟨a, s.closing, id :: s.closed, s.log ++ [e]⟩
      fun hmem => hnot (mem_append_left _ hmem)
    show e.Releases key' cmd' id (promise ⟨a, s.closing, id :: s.closed, s.log ++ [e]⟩ id)
    rw [hpromise, hself]
    exact hreleases
  · intro key' cmd' id' hend hp'
    rw [mem_singleton]
    exact (hplace _ _ _ hp').mpr (hends key' cmd' hend)

theorem opened {ttl now : Int} (hopen : s.adapter.flights.isSome)
    (hnone : s.adapter.flightAt key cmd = none) :
    (book ⟨{ s.adapter.setMarker key cmd (some s.adapter.entries.next) with
        entries := s.adapter.entries.alloc { xat := unixMilli (now + ttl) } },
      s.closing, s.closed, s.log ++ [.missed key cmd ttl now]⟩).Sound := by
  generalize ha : ({ s.adapter.setMarker key cmd (some s.adapter.entries.next) with
    entries := s.adapter.entries.alloc { xat := unixMilli (now + ttl) } } : Adapter σ) = a
  have hmarker : ∀ key' cmd', a.marker key' cmd' =
      if key' = key ∧ cmd' = cmd then some (some s.adapter.entries.next)
      else s.adapter.marker key' cmd' := by
    intro key' cmd'
    rw [← marker_setMarker hopen, ← ha]
    rfl
  refine h.step (.opened key cmd ttl now ?_ ?_ ?_ ?_ ?_ rfl rfl)
  · intro id hp
    cases hnone.symm.trans hp
  · intro hclosed
    have hsome : a.flights.isSome = true := ha ▸ (isSome_setMarker ..).trans hopen
    rw [show a.flights = none from hclosed] at hsome
    cases hsome
  · rw [← ha]
    rfl
  · intro key' cmd' id
    show a.flightAt key' cmd' = some id ↔ s.adapter.flightAt key' cmd' = some id ∨ _
    rw [flightAt_eq_some, hmarker]
    by_cases hsame : key' = key ∧ cmd' = cmd
    · rw [if_pos hsame]
      obtain ⟨rfl, rfl⟩ := hsame
      rw [hnone]
      simp [eq_comm, book]
    · rw [if_neg hsame, ← flightAt_eq_some]
      exact ⟨.inl, fun hp => hp.resolve_right fun hnew => hsame ⟨hnew.1, hnew.2.1⟩⟩
  · intro id hid
    exact promise_congr (ha ▸ get_alloc_ne _ _ (Nat.ne_of_lt (h.gone id hid).1))

theorem close_entries :
    (s.adapter.close sc).2.Nodup ∧
      ∀ id, id ∈ (s.adapter.close sc).2 ↔ ∃ key cmd, s.adapter.flightAt key cmd = some id := by
  have hfound : ∀ kv ∈ (s.adapter.flights.getD ∅).entries, s.adapter.entriesOf kv.1 = some kv.2 := by
    intro kv hkv
    unfold entriesOf
    cases hfs : s.adapter.flights <;> rw [hfs] at hkv
    · cases hkv
    · exact AList.mem_lookup_iff.mpr hkv
  have hplace : ∀ kv ∈ (s.adapter.flights.getD ∅).entries, ∀ p ∈ kv.2.entries, ∀ id, p.2 = some id →
      s.adapter.flightAt kv.1 p.1 = some id := by
    intro kv hkv p hp id hid
    rw [flightAt_eq_some, ← hid]
    unfold marker
    rw [hfound kv hkv]
    exact AList.mem_lookup_iff.mpr hp
  constructor
  · show ((s.adapter.flights.getD ∅).entries.flatMap fun kv => kv.2.entries.filterMap (·.2)).Nodup
    rw [nodup_flatMap]
    constructor
    · intro kv hkv
      unfold Nodup
      rw [pairwise_filterMap]
      apply (nodupKeys_iff_pairwise.mp kv.2.nodupKeys).imp_of_mem
      rintro p q hp hq hne id hid _ hid' rfl
      exact hne (h.place _ _ _ _ _ (hplace kv hkv p hp id hid) (hplace kv hkv q hq id hid')).2
    · have hkeys := nodupKeys_iff_pairwise.mp (s.adapter.flights.getD ∅).nodupKeys
      apply hkeys.imp_of_mem
      intro kv kv' hkv hkv' hne id hid hid'
      rw [mem_filterMap] at hid hid'
      obtain ⟨p, hp, hpid⟩ := hid
      obtain ⟨q, hq, hqid⟩ := hid'
      exact hne (h.place _ _ _ _ _ (hplace kv hkv p hp id hpid) (hplace kv' hkv' q hq id hqid)).1
  · intro id
    show id ∈ (s.adapter.flights.getD ∅).entries.flatMap _ ↔ _
    rw [mem_flatMap]
    constructor
    · rintro ⟨kv, hkv, hid⟩
      obtain ⟨p, hp, hpid⟩ := mem_filterMap.mp hid
      exact ⟨kv.1, p.1, hplace kv hkv p hp id hpid⟩
    · rintro ⟨key, cmd, hp⟩
      rw [flightAt_eq_some] at hp
      obtain ⟨es, hes, hlook⟩ := Option.bind_eq_some_iff.mp hp
      obtain ⟨fs, hfs, hes⟩ := Option.bind_eq_some_iff.mp hes
      refine ⟨⟨key, es⟩, ?_, mem_filterMap.mpr ⟨⟨cmd, some id⟩, ?_, rfl⟩⟩
      · rw [hfs]
        exact AList.mem_lookup_iff.mp hes
      · exact AList.mem_lookup_iff.mp hlook

theorem close :
    (book ⟨(s.adapter.close sc).1, (s.adapter.close sc).2.map (·, err) ++ s.closing, s.closed,
      s.log ++ [.closed err (s.adapter.close sc).2]⟩).Sound := by
  obtain ⟨honce, hmem⟩ := close_entries sc h
  generalize hchs : (s.adapter.close sc).2 = chs at honce hmem ⊢
  have hnone : ∀ key cmd id, (s.adapter.close sc).1.flightAt key cmd ≠ some id := nofun
  have hfst : (chs.map (·, err) ++ s.closing).map Prod.fst = chs ++ s.closing.map Prod.fst := by
    rw [map_append, map_map]
    show chs.map id ++ _ = _
    rw [map_id]
  -- an entry that was settled before is none of those
  have hnew : ∀ id ∈ s.closing.map Prod.fst ++ s.closed, id ∉ chs := by
    intro id hid hin
    obtain ⟨key, cmd, hp⟩ := (hmem id).mp hin
    exact (h.gone id hid).2 key cmd hp
  have hnodup : ((chs.map (·, err) ++ s.closing).map Prod.fst).Nodup := by
    rw [hfst, nodup_append]
    refine ⟨honce, (nodup_append.mp h.once).1, ?_⟩
    rintro id hid _ hid' rfl
    exact hnew id (mem_append_left _ hid') hid
  refine h.step (.settle chs (.closed err chs) honce (fun id hid => (hmem id).mp hid)
    (fun _ => .inr ⟨err, chs, rfl⟩) rfl ?_ ?_ ?_ rfl rfl ?_
    (fun key cmd id _ hp => (hmem id).mpr ⟨key, cmd, hp⟩) nofun nofun)
  · intro key cmd id
    exact ⟨fun hp => absurd hp (hnone key cmd id),
      fun hp => absurd ((hmem id).mpr ⟨key, cmd, hp.1⟩) hp.2⟩
  · intro id hid
    by_cases hin : id ∈ s.closing.map Prod.fst
    · obtain ⟨⟨id', err'⟩, hp, rfl⟩ := mem_map.mp hin
      exact (promise_of_closing _ hnodup (mem_append_right _ hp)).trans
        (promise_of_closing s (nodup_append.mp h.once).1 hp).symm
    · refine (promise_of_not_closing _ ?_).trans (promise_of_not_closing s hin).symm
      rw [hfst]
      exact not_mem_append (hnew id hid) hin
  · show ((chs.map (·, err) ++ s.closing).map Prod.fst ++ s.closed).Perm _
    rw [hfst, append_assoc]
    exact .refl _
  · intro key cmd id hid _
    have hin : (id, err) ∈ chs.map (·, err) ++ s.closing :=
      mem_append_left _ (mem_map_of_mem hid)
    exact .inr (.inr ⟨err, chs, rfl, hid, congrArg Prod.snd (promise_of_closing _ hnodup hin)⟩)

theorem setClosed (hid : (id, err) ∈ s.closing) :
    (book ⟨s.adapter.setEntry id {} (some err), s.closing.erase (id, err), id :: s.closed,
      s.log⟩).Sound := by
  have honce : (s.closing.map Prod.fst).Nodup := (nodup_append.mp h.once).1
  have hperm := (perm_cons_erase hid).map Prod.fst
  have hnodup : (id :: (s.closing.erase (id, err)).map Prod.fst).Nodup := hperm.nodup_iff.mp honce
  rw [nodup_cons] at hnodup
  refine h.step (.quiet ⟨fun hclosed => hclosed, rfl, fun _ _ _ => Iff.rfl, ?_, ?_⟩ rfl)
  · intro id' _
    by_cases hii : id' = id
    · subst hii
      refine (promise_of_not_closing _ hnodup.1).trans ?_
      rw [show s.book.wait id' = _ from promise_of_closing s honce hid]
      show ((s.adapter.entries.set id' _).get id').wait = _
      rw [get_set_self]
      rfl
    · have hentry : (s.adapter.setEntry id {} (some err)).entry id' = s.adapter.entry id' :=
        get_set_ne _ _ (Ne.symm hii)
      by_cases hin : id' ∈ s.closing.map Prod.fst
      · obtain ⟨⟨id'', err'⟩, hp, rfl⟩ := mem_map.mp hin
        have hp' : (id'', err') ∈ s.closing.erase (id, err) :=
          (mem_erase_of_ne fun heq => hii (congrArg Prod.fst heq)).mpr hp
        exact (promise_of_closing _ hnodup.2 hp').trans (promise_of_closing s honce hp).symm
      · refine (promise_of_not_closing _ fun hin' =>
          hin (hperm.mem_iff.mpr (mem_cons_of_mem _ hin'))).trans ?_
        exact (congrArg AdapterEntry.wait hentry).trans (promise_of_not_closing s hin).symm
  · exact perm_middle.trans (hperm.symm.append_right s.closed)

theorem report (hsettled : e.settled = [])
    (hmiss : ∀ key cmd, e.Misses key cmd → s.adapter.flights = none)
    (hwaits : ∀ key cmd id, e = .waits key cmd id → s.adapter.flightAt key cmd = some id)
    (hends : ∀ key cmd id, e.Ends key cmd → s.adapter.flightAt key cmd ≠ some id) :
    (book ⟨s.adapter, s.closing, s.closed, s.log ++ [e]⟩).Sound :=
  event h rfl (fun hclosed => hclosed) (fun _ _ _ => Iff.rfl) hsettled hmiss hwaits hends

theorem deleted (keys : Option (List RedisMessage)) :
    (book ⟨s.adapter.delete sc keys, s.closing, s.closed, s.log ++ [.deleted keys]⟩).Sound := by
  obtain ⟨hentries, hsome⟩ := delete_frame sc keys s.adapter
  refine event h hentries (eq_none_of_isSome_eq hsome) ?_ rfl ?_ nofun ?_
  · intro key cmd id
    obtain ⟨hdropped, hkept⟩ := marker_delete sc keys s.adapter key cmd
    rw [flightAt_eq_some, flightAt_eq_some]
    by_cases hgone : Covers keys key ∧ s.adapter.marker key cmd = some none
    · rw [hdropped hgone, hgone.2]
      exact ⟨nofun, nofun⟩
    · rw [hkept hgone]
  · exact fun _ _ hm => absurd hm (not_misses nofun)
  · exact fun _ _ _ hend => absurd hend (not_ends nofun nofun nofun)

theorem moved {s' : AdapterSystem σ} (hm : AdapterMoved sc s act s') : s'.book.Sound := by
  -- most events are no misses, and end nothing
  have hmiss : ∀ {e : CacheEvent}, (∀ key cmd ttl now, e ≠ .missed key cmd ttl now) →
      ∀ key cmd, e.Misses key cmd → s.adapter.flights = none :=
    fun he _ _ hm => absurd hm (not_misses he)
  cases hm with
  | nothing key cmd now => exact h
  | hit key cmd now v hlook =>
    exact report h rfl (hmiss nofun) nofun
      fun _ _ _ hend => absurd hend (not_ends nofun nofun nofun)
  | waits act key cmd id hp =>
    exact report h rfl (hmiss nofun) (fun key' cmd' id' heq => by cases heq; exact hp)
      fun _ _ _ hend => absurd hend (not_ends nofun nofun nofun)
  | missed key cmd ttl now hclosed =>
    exact report h rfl (fun _ _ _ => hclosed) nofun
      fun _ _ _ hend => absurd hend (not_ends nofun nofun nofun)
  | opened key cmd ttl now hopen hnone => exact opened h hopen hnone
  | updated key cmd val hnone =>
    refine report h rfl (hmiss nofun) nofun ?_
    intro key' cmd' id hend hp
    obtain ⟨rfl, rfl⟩ := ends_updated hend
    cases hnone.symm.trans hp
  | stored key cmd val id hp =>
    refine settle h hp rfl (fun _ _ => ends_updated) (.inl ⟨val, rfl, rfl, ?_⟩) nofun nofun
    unfold AdapterEntry.stamped
    dsimp only
    split
    · exact .inr ⟨_, rfl⟩
    · exact .inl rfl
  | cancelled key cmd err hnone =>
    refine report h rfl (hmiss nofun) nofun ?_
    intro key' cmd' id hend hp
    obtain ⟨rfl, rfl⟩ := ends_cancelled hend
    cases hnone.symm.trans hp
  | removed key cmd err id hp =>
    exact settle h hp rfl (fun _ _ => ends_cancelled)
      (.inr (.inl ⟨err, rfl, rfl⟩)) nofun nofun
  | deleted keys => exact deleted sc h keys
  | closed err => exact close sc h
  | released id err hid => exact setClosed h hid

end AdapterSystem

/-! ## Runs -/

/-- The contract in every run over any cache.  An entry that was handed out is in its place,
whatever was deleted, until the first operation that ends it, which releases it with what `Wait`
returns once the channel is closed. -/
theorem adapter_flights (store : σ) (acts : List AdapterAct) (s : AdapterSystem σ)
    (h : run (adapterStep sc) (newAdapterSystem store) acts = some s) :
    (∀ key cmd, Separated (CacheEvent.Misses key cmd) (CacheEvent.Settles key cmd) CacheEvent.Closes
      s.log) ∧
    (s.closing.map Prod.fst ++ s.closed).Nodup ∧
    (s.closing.map Prod.fst ++ s.closed).Perm (s.log.flatMap settled) ∧
    (∀ before after key cmd id, s.log = before ++ .waits key cmd id :: after →
      (s.adapter.flightAt key cmd = some id ∧ id ∉ s.closing.map Prod.fst ++ s.closed ∧
        ∀ e ∈ after, ¬ e.Ends key cmd) ∨
      ∃ first e later, after = first ++ e :: later ∧ (∀ x ∈ first, ¬ x.Ends key cmd) ∧
        id ∈ s.closing.map Prod.fst ++ s.closed ∧ e.Releases key cmd id (s.promise id)) ∧
    ∀ id ∈ s.closed, s.promise id = (s.adapter.entry id).wait := by
  have hstep : ∀ (s : AdapterSystem σ) (a : AdapterAct) (t : AdapterSystem σ), s.book.Sound →
      adapterStep sc s a = some t → t.book.Sound :=
    fun _ _ _ hs hstep => AdapterSystem.moved sc hs (adapterStep_moved sc hstep)
  have hnew : (newAdapterSystem store).book.Sound :=
    FlightBook.sound_new nofun (fun key cmd id => nofun) rfl rfl
  have hsound : s.book.Sound := run_invariant (adapterStep sc) hstep hnew h
  refine ⟨hsound.apart, hsound.once, hsound.record, ?_, ?_⟩
  · exact fun before after key cmd id hlog => (hsound.waiting before after key cmd id hlog).imp_left
      fun ⟨hp, hnot⟩ => ⟨hp, fun hid => (hsound.gone id hid).2 key cmd hp, hnot⟩
  · exact fun id hid => AdapterSystem.promise_of_not_closing _
      fun hin => (nodup_append.mp hsound.once).2.2 id hin id hid rfl

theorem adapter_flights_closed :
    let acts : List AdapterAct := [.opens [107] [71] 1000000 5000000, .look [107] [71] 5000000,
      .delete none, .close .closing, .setClosed 0 .closing]
    ∃ s before after,
      run (adapterStep mapCache) (newAdapterSystem fun _ => none) acts = some s ∧
      s.log = before ++ .waits [107] [71] 0 :: after ∧ s.closed = [0] ∧
      ∃ e ∈ after, e.Releases [107] [71] 0 (s.adapter.entry 0).wait := by
  intro acts
  have hlog : (run (adapterStep mapCache) (newAdapterSystem fun _ => none) acts).map
      AdapterSystem.log = some ([.missed [107] [71] 1000000 5000000] ++ .waits [107] [71] 0 ::
        [.deleted none, .closed .closing [0]]) := rfl
  have hclosed : (run (adapterStep mapCache) (newAdapterSystem fun _ => none) acts).map
      AdapterSystem.closed = some [0] := rfl
  obtain ⟨s, hrun, hlog⟩ := Option.map_eq_some_iff.mp hlog
  rw [hrun] at hclosed
  have hclosed := Option.some.inj hclosed
  obtain ⟨-, -, -, hwaits, hpromise⟩ := adapter_flights mapCache (fun _ => none) acts s hrun
  refine ⟨s, _, _, hrun, hlog, hclosed, ?_⟩
  have hin : 0 ∈ s.closed := hclosed ▸ mem_cons_self
  rcases hwaits _ _ [107] [71] 0 hlog with ⟨-, hnot, -⟩ | ⟨first, e, later, heq, -, -, hreleases⟩
  · exact absurd (mem_append_right _ hin) hnot
  · rw [heq, ← hpromise 0 hin]
    exact ⟨e, mem_append_right _ mem_cons_self, hreleases⟩

end Rueidis
