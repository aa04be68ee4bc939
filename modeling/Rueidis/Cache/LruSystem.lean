import Rueidis.Cache.LruSizes
import Rueidis.Library.Machine

/-!
# Runs of the cache

The cache is shared: the calls of all goroutines interleave, and each section under the mutex is
one step.  `Update` and `Cancel` close the channel of an entry after they have unlocked, which is a
step of its own.  The log has what the calls reported.
-/

namespace Rueidis

open List Machine

open Lru (FlightsOut)

variable {key cmd : Bytes}

structure LruSystem where
  lru : Lru
  /-- The channels that an `Update` or a `Cancel` has still to close. -/
  closing : List Nat
  /-- The channels that were closed, once for each `close`. -/
  closed : List Nat
  log : List CacheEvent

inductive LruAct where
  /-- The section of `Flight` and `Flights` under the read lock. -/
  | look (now : Int) (multi : List (Bytes × Bytes × Int))
  | move (ids : List Nat)
  /-- Their last section, for the indexes that are missed in `outs`. -/
  | opens (now : Int) (multi : List (Bytes × Bytes × Int)) (outs : List FlightsOut)
  | update (key cmd : Bytes) (value : RedisMessage)
  | cancel (key cmd : Bytes) (err : Err)
  | delete (keys : Option (List RedisMessage))
  | close (err : Err)
  | closeCh (id : Nat)

variable {acts : List LruAct}

def FlightsOut.event (now : Int) (p : Bytes × Bytes × Int) : FlightsOut → CacheEvent
  | .entry id => .waits p.1 p.2.1 id
  | .result v => .hit p.1 p.2.1 now v
  | .missed => .missed p.1 p.2.1 p.2.2 now

def lookEvents (now : Int) : List (Bytes × Bytes × Int) → List FlightsOut → List CacheEvent
  | _ :: multi, .missed :: outs => lookEvents now multi outs
  | p :: multi, out :: outs => FlightsOut.event now p out :: lookEvents now multi outs
  | _, _ => []

def openEvents (now : Int) :
    List (Bytes × Bytes × Int) → List FlightsOut → List FlightsOut → List CacheEvent
  | p :: multi, .missed :: outs, out :: outs' =>
    FlightsOut.event now p out :: openEvents now multi outs outs'
  | _ :: multi, _ :: outs, _ :: outs' => openEvents now multi outs outs'
  | _, _, _ => []

def lruStep (s : LruSystem) : LruAct → Option LruSystem
  | .look now multi =>
    let (c, _, outs) := Lru.lookAll now s.lru multi
    some { s with lru := c, log := s.log ++ lookEvents now multi outs }
  | .move ids => some { s with lru := ids.foldl Lru.moveToBack s.lru }
  | .opens now multi outs =>
    let (c, outs') := Lru.openAll now s.lru multi outs
    some { s with lru := c, log := s.log ++ openEvents now multi outs outs' }
  | .update key cmd value =>
    let (c, _, ch) := s.lru.update key cmd value
    some { s with
      lru := c, closing := ch.toList ++ s.closing, log := s.log ++ [.updated key cmd value ch] }
  | .cancel key cmd err =>
    let (c, ch) := s.lru.cancel key cmd err
    some { s with
      lru := c, closing := ch.toList ++ s.closing, log := s.log ++ [.cancelled key cmd err ch] }
  | .delete keys => some { s with lru := s.lru.delete keys, log := s.log ++ [.deleted keys] }
  | .close err =>
    let (c, chs) := s.lru.close err
    some { s with lru := c, closed := chs ++ s.closed, log := s.log ++ [.closed err chs] }
  | .closeCh id =>
    if id ∈ s.closing then
      some { s with closing := s.closing.erase id, closed := id :: s.closed }
    else none

def newLruSystem (max : Int) : LruSystem := ⟨newLRU max, [], [], []⟩

def LruAct.Gives (P : RedisMessage → Prop) : LruAct → Prop
  | .update _ _ value => P value
  | _ => True

namespace Lru

variable {c c' : Lru} {key cmd : Bytes} {id : Nat} {now : Int}

/-! ## Close -/

theorem entry_setErrs (ids : List Nat) (err : Err) (c : Lru) (id : Nat) :
    (ids.foldl (fun c id => c.setEntry id { c.entry id with err := some err }) c).entry id =
      if id ∈ ids then { c.entry id with err := some err } else c.entry id := by
  induction ids generalizing c with
  | nil => rfl
  | cons id' ids ih =>
    rw [foldl_cons, ih]
    by_cases hii : id = id'
    · subst hii
      have hself : (c.setEntry id { c.entry id with err := some err }).entry id =
          { c.entry id with err := some err } := Heap.get_set_self ..
      rw [hself, if_pos mem_cons_self]
      split <;> rfl
    · have hother : (c.setEntry id' { c.entry id' with err := some err }).entry id =
          c.entry id := Heap.get_set_ne _ _ (Ne.symm hii)
      rw [hother]
      simp only [mem_cons, hii, false_or]

theorem next_setErrs (ids : List Nat) (err : Err) (c : Lru) :
    (ids.foldl (fun c id => c.setEntry id { c.entry id with err := some err }) c).entries.next =
      c.entries.next := by
  induction ids generalizing c with
  | nil => rfl
  | cons id ids ih =>
    rw [foldl_cons, ih]
    rfl

-- an entry has one place, so the walk over the store meets it once
theorem pendings_nodup (h : Ok c) : c.pendings.Nodup := by
  have hfound : ∀ kv ∈ (c.store.getD ∅).entries, c.keyCache kv.1 = some kv.2 := by
    intro kv hkv
    unfold keyCache
    cases hs : c.store <;> rw [hs] at hkv
    · cases hkv
    · exact AList.mem_lookup_iff.mpr hkv
  have hplace : ∀ kv ∈ (c.store.getD ∅).entries, ∀ p ∈ (c.kc kv.2).cache.entries,
      c.elem kv.1 p.1 = some p.2 :=
    fun kv hkv p hp => elem_eq_some.mpr ⟨kv.2, hfound kv hkv, AList.mem_lookup_iff.mpr hp⟩
  unfold pendings
  rw [nodup_flatMap]
  constructor
  · intro kv hkv
    apply Nodup.filter
    apply Nodup.map_on
    · intro p hp q hq heq
      have hpq := h.elem_inj (hplace kv hkv p hp) (heq ▸ hplace kv hkv q hq)
      exact Sigma.ext hpq.2.symm (heq_of_eq heq)
    · exact (c.kc kv.2).cache.nodupKeys.nodup
  · have hkeys := (nodupKeys_iff_pairwise).mp (c.store.getD ∅).nodupKeys
    apply hkeys.imp_of_mem
    intro kv kv' hkv hkv' hne id hid hid'
    rw [mem_filter, mem_map] at hid hid'
    obtain ⟨⟨p, hp, rfl⟩, -⟩ := hid
    obtain ⟨⟨q, hq, heq⟩, -⟩ := hid'
    exact hne (h.elem_inj (hplace kv hkv p hp) (heq ▸ hplace kv' hkv' q hq)).1.symm

theorem close_spec (c : Lru) (err : Err) :
    (c.close err).1.store = none ∧ Ok (c.close err).1 ∧
      (c.close err).1.entries.next = c.entries.next ∧
      ∀ id, (c.close err).1.entry id =
        if id ∈ (c.close err).2 then { c.entry id with err := some err } else c.entry id := by
  have hkeys : ∀ key k, (c.close err).1.keyCache key ≠ some k := nofun
  exact ⟨rfl, ⟨⟨fun key k hk => absurd hk (hkeys key k), fun key k _ _ hk => absurd hk (hkeys key k),
    nodup_nil, fun id => ⟨nofun, nofun⟩, rfl⟩, fun key k hk => absurd hk (hkeys key k)⟩,
    next_setErrs _ _ _, entry_setErrs _ _ _⟩

theorem Touched.shrunk (h : Touched c c') : Shrunk c c' where
  entries := h.entries
  store := by rw [h.store]
  max := h.max
  sub key cmd id := by rw [h.elem]; exact fun hid => hid
  keep key cmd id hid _ := by rw [h.elem]; exact hid

end Lru

/-! ## What a step does -/

open Lru

/-- The effects that the steps are made of, with the entries found under the keys and commands. -/
inductive LruMoved (P : RedisMessage → Prop) (s : LruSystem) : LruSystem → Prop where
  | quiet (c : Lru) (hok : Ok c) (hc : Shrunk s.lru c) : LruMoved P s { s with lru := c }
  | waits (key cmd : Bytes) (id : Nat) (hplace : s.lru.elem key cmd = some id)
      (hp : (s.lru.entry id).pending) :
      LruMoved P s { s with log := s.log ++ [.waits key cmd id] }
  | hit (key cmd : Bytes) (now : Int) (id : Nat) (hplace : s.lru.elem key cmd = some id)
      (hvalue : ¬ (s.lru.entry id).pending)
      (hlive : 0 < (s.lru.entry id).val.relativePTTL now) :
      LruMoved P s { s with log := s.log ++ [.hit key cmd now (s.lru.entry id).val] }
  | missed (key cmd : Bytes) (ttl now : Int) (hs : s.lru.store = none) :
      LruMoved P s { s with log := s.log ++ [.missed key cmd ttl now] }
  | opened (key cmd : Bytes) (ttl now : Int) (c : Lru) (k : Nat)
      (hdead : ∀ id, s.lru.elem key cmd = some id → ¬ Live (s.lru.entry id).val now)
      (hok : Ok c) (hs : c.store.isSome)
      (hentries : c.entries = s.lru.entries.alloc (pendingEntry k cmd ttl now))
      (helem : ∀ key' cmd', c.elem key' cmd' =
        if key' = key ∧ cmd' = cmd then some s.lru.entries.next else s.lru.elem key' cmd') :
      LruMoved P s { s with lru := c, log := s.log ++ [.missed key cmd ttl now] }
  | updated (key cmd : Bytes) (value : RedisMessage)
      (hnone : ∀ id, s.lru.elem key cmd = some id → ¬ (s.lru.entry id).pending) :
      LruMoved P s { s with log := s.log ++ [.updated key cmd value none] }
  | stored (key cmd : Bytes) (value : RedisMessage) (id : Nat)
      (hplace : s.lru.elem key cmd = some id) (hp : (s.lru.entry id).pending) (hvalue : P value) :
      LruMoved P s { s with
        lru := s.lru.fill key cmd id (stamped (s.lru.entry id) value).2,
        closing := id :: s.closing, log := s.log ++ [.updated key cmd value (some id)] }
  | cancelled (key cmd : Bytes) (err : Err)
      (hnone : ∀ id, s.lru.elem key cmd = some id → ¬ (s.lru.entry id).pending) :
      LruMoved P s { s with log := s.log ++ [.cancelled key cmd err none] }
  | removed (key cmd : Bytes) (err : Err) (c : Lru) (id : Nat)
      (hplace : s.lru.elem key cmd = some id) (hp : (s.lru.entry id).pending) (hok : Ok c)
      (hentries : c.entries = s.lru.entries.set id { s.lru.entry id with err := some err })
      (hs : c.store.isSome = s.lru.store.isSome)
      (helem : ∀ key' cmd', c.elem key' cmd' =
        if key' = key ∧ cmd' = cmd then none else s.lru.elem key' cmd') :
      LruMoved P s { s with
        lru := c, closing := id :: s.closing, log := s.log ++ [.cancelled key cmd err (some id)] }
  | deleted (keys : Option (List RedisMessage)) (c : Lru) (hok : Ok c) (hc : Shrunk s.lru c)
      (hgone : ∀ key cmd id, Covers keys key → c.elem key cmd = some id →
        (s.lru.entry id).pending) :
      LruMoved P s { s with lru := c, log := s.log ++ [.deleted keys] }
  | closed (err : Err) (c : Lru) (chs : List Nat) (hs : c.store = none) (hok : Ok c)
      (hnext : c.entries.next = s.lru.entries.next) (honce : chs.Nodup)
      (hchs : ∀ id, id ∈ chs ↔ (s.lru.entry id).pending ∧ ∃ key cmd, s.lru.elem key cmd = some id)
      (hentry : ∀ id, c.entry id =
        if id ∈ chs then { s.lru.entry id with err := some err } else s.lru.entry id) :
      LruMoved P s { s with lru := c, closed := chs ++ s.closed, log := s.log ++ [.closed err chs] }
  | released (id : Nat) (hid : id ∈ s.closing) :
      LruMoved P s { s with closing := s.closing.erase id, closed := id :: s.closed }

namespace LruMoved

variable {P : RedisMessage → Prop} {s s' : LruSystem}

theorem ok (h : LruMoved P s s') (hs : Ok s.lru) : Ok s'.lru := by
  cases h with
  | stored key cmd value id hplace hp => exact hs.fill key cmd id _
  | quiet | opened | removed | deleted | closed => assumption
  | _ => exact hs

theorem value {id : Nat} (ttl now : Int) (hplace : s.lru.elem key cmd = some id)
    (hlive : Live (s.lru.entry id).val now) :
    LruMoved P s { s with
      log := s.log ++ [FlightsOut.event now (key, cmd, ttl) (.ofValue id (s.lru.entry id).val)] } := by
  unfold FlightsOut.ofValue
  by_cases hp : (s.lru.entry id).val.typ = 0
  · rw [if_pos hp]
    exact .waits key cmd id hplace hp
  · rw [if_neg hp]
    exact .hit key cmd now id hplace hp (hlive.resolve_left hp)

end LruMoved

theorem lookEvents_ofValue (now : Int) (p : Bytes × Bytes × Int) (multi : List (Bytes × Bytes × Int))
    (id : Nat) (v : RedisMessage) (outs : List FlightsOut) :
    lookEvents now (p :: multi) (.ofValue id v :: outs) =
      FlightsOut.event now p (.ofValue id v) :: lookEvents now multi outs := by
  unfold FlightsOut.ofValue
  split <;> rfl

theorem Lru.look_eq_some {c : Lru} {now : Int} {k id : Nat} {v : RedisMessage}
    (h : c.look key cmd now = some (k, id, v)) :
    c.elem key cmd = some id ∧ v = (c.entry id).val ∧ Live v now := by
  obtain ⟨k', hk, h⟩ := Option.bind_eq_some_iff.mp h
  obtain ⟨id', hid, h⟩ := Option.bind_eq_some_iff.mp h
  dsimp only at h
  split at h
  next hlive =>
    cases h
    exact ⟨elem_eq_some.mpr ⟨_, hk, hid⟩, rfl, hlive⟩
  · cases h

open Relation (ReflTransGen)

section Sections

variable {P : RedisMessage → Prop} (now : Int)

theorem lookAll_moved (multi : List (Bytes × Bytes × Int)) (s : LruSystem) (hok : Ok s.lru) :
    ReflTransGen (LruMoved P) s { s with
      lru := (lookAll now s.lru multi).1
      log := s.log ++ lookEvents now multi (lookAll now s.lru multi).2.2 } := by
  induction multi generalizing s with
  | nil =>
    show ReflTransGen _ s { s with log := s.log ++ [] }
    rw [append_nil]
  | cons p multi ih =>
    obtain ⟨key, cmd, ttl⟩ := p
    unfold lookAll
    cases hlook : s.lru.look key cmd now with
    | none => exact ih s hok
    | some r =>
      obtain ⟨k, id, v⟩ := r
      obtain ⟨hplace, rfl, hlive⟩ := look_eq_some hlook
      have ht := Touched.hit s.lru k
      -- the hit is counted, then the index is answered, then the rest of the batch
      have hquiet : LruMoved P s { s with lru := s.lru.hit k } :=
        .quiet _ (ht.ok hok) ht.shrunk
      have hvalue : LruMoved P { s with lru := s.lru.hit k } _ :=
        .value ttl now ((ht.elem key cmd).trans hplace)
          (by rw [ht.entry]; exact hlive)
      have hrest := ih _ (hvalue.ok (hquiet.ok hok))
      rw [lookEvents_ofValue]
      apply (ReflTransGen.head hquiet (.head hvalue hrest)).trans
      rw [ht.entry, append_assoc]
      exact .refl

theorem openFlight_moved (key cmd : Bytes) (ttl : Int) (s : LruSystem) (hok : Ok s.lru) :
    ReflTransGen (LruMoved P) s { s with
      lru := (s.lru.openFlight key cmd ttl now).1
      log := s.log ++ [FlightsOut.event now (key, cmd, ttl)
        (match (s.lru.openFlight key cmd ttl now).2 with
          | .value id v => .ofValue id v
          | _ => .missed)] } := by
  have hcases := openFlight_cases hok key cmd ttl now
  generalize s.lru.openFlight key cmd ttl now = r at hcases
  cases hcases with
  | closed hs => exact .single (.missed key cmd ttl now hs)
  | value c id hplace hlive ht =>
    have hquiet : LruMoved P s { s with lru := c } := .quiet _ (ht.ok hok) ht.shrunk
    have hvalue : LruMoved P { s with lru := c } _ :=
      .value ttl now ((ht.elem key cmd).trans hplace) (by rw [ht.entry]; exact hlive)
    rw [ht.entry] at hvalue
    exact .head hquiet (.single hvalue)
  | opened c k hs hdead hok hs' hentries helem =>
    exact .single (.opened key cmd ttl now c k hdead hok hs' hentries helem)

theorem ok_moved {s s' : LruSystem} (h : ReflTransGen (LruMoved P) s s') (hok : Ok s.lru) :
    Ok s'.lru := by
  induction h with
  | refl => exact hok
  | tail _ hstep ih => exact hstep.ok ih

theorem openAll_moved (multi : List (Bytes × Bytes × Int)) (outs : List FlightsOut) (s : LruSystem)
    (hok : Ok s.lru) :
    ReflTransGen (LruMoved P) s { s with
      lru := (openAll now s.lru multi outs).1
      log := s.log ++ openEvents now multi outs (openAll now s.lru multi outs).2 } := by
  have hnothing : ReflTransGen (LruMoved P) s { s with log := s.log ++ [] } := by
    rw [append_nil]
  induction multi generalizing s outs with
  | nil =>
    exact hnothing
  | cons p multi ih =>
    obtain ⟨key, cmd, ttl⟩ := p
    cases outs with
    | nil => exact hnothing
    | cons out outs =>
      cases out with
      | entry | result => exact ih outs s hok hnothing
      | missed =>
        have hfirst := openFlight_moved (P := P) now key cmd ttl s hok
        have hrest := ih outs _ (ok_moved hfirst hok) (by rw [append_nil])
        apply hfirst.trans
        unfold openAll
        generalize s.lru.openFlight key cmd ttl now = r at hrest ⊢
        obtain ⟨c, looked⟩ := r
        rw [append_assoc] at hrest
        cases looked <;> exact hrest

end Sections

variable {P : RedisMessage → Prop} {s s' : LruSystem}

theorem lruStep_moved {a : LruAct} (h : lruStep s a = some s') (ha : a.Gives P) (hok : Ok s.lru) :
    ReflTransGen (LruMoved P) s s' := by
  cases a with
  | look now multi =>
    cases h
    exact lookAll_moved now multi s hok
  | move ids =>
    cases h
    have ht := moves_touched ids s.lru
    exact .single (.quiet _ (ht.ok hok) ht.shrunk)
  | opens now multi outs =>
    cases h
    exact openAll_moved now multi outs s hok
  | update key cmd value =>
    have hcases := update_cases hok key cmd value
    unfold lruStep at h
    dsimp only at h
    generalize s.lru.update key cmd value = r at hcases h
    cases hcases <;> cases h
    next hplace =>
      exact .single (.updated key cmd value fun id hid => nomatch hplace.symm.trans hid)
    next c id hplace hvalue hdrops =>
      have hnone : ∀ id', s.lru.elem key cmd = some id' → ¬ (s.lru.entry id').pending := by
        intro id' hid'
        cases hplace.symm.trans hid'
        exact hvalue
      exact .head (.updated key cmd value hnone)
        (.single (.quiet c (hdrops.ok hok) (hdrops.shrunk hok)))
    next c id hplace hp hdrops =>
      have hfill := hok.fill key cmd id (stamped (s.lru.entry id) value).2
      exact .head (.stored key cmd value id hplace hp ha)
        (.single (.quiet c (hdrops.ok hfill) (hdrops.shrunk hfill)))
  | cancel key cmd err =>
    have hcases := cancel_cases hok key cmd err
    unfold lruStep at h
    dsimp only at h
    generalize s.lru.cancel key cmd err = r at hcases h
    cases hcases with cases h
    | nothing hplace => exact .single (.cancelled key cmd err hplace)
    | removed c id hplace hp hok hentries hs helem =>
      exact .single (.removed key cmd err c id hplace hp hok hentries hs helem)
  | delete keys =>
    cases h
    obtain ⟨hdrops, hgone⟩ := delete_spec hok keys
    exact .single (.deleted keys _ (hdrops.ok hok) (hdrops.shrunk hok) hgone)
  | close err =>
    cases h
    obtain ⟨hs, hclosed, hnext, hentry⟩ := close_spec s.lru err
    exact .single (.closed err _ _ hs hclosed hnext (pendings_nodup hok)
      (fun _ => mem_pendings) hentry)
  | closeCh id =>
    unfold lruStep at h
    dsimp only at h
    split at h <;> cases h
    next hid => exact .single (.released id hid)

theorem lruRun_moved (h : run lruStep s acts = some s') (hacts : ∀ a ∈ acts, a.Gives P)
    (hok : Ok s.lru) : ReflTransGen (LruMoved P) s s' := by
  induction acts generalizing s with
  | nil =>
    cases h
    exact .refl
  | cons a acts ih =>
    rw [forall_mem_cons] at hacts
    obtain ⟨t, hstep, hrest⟩ := (run_cons_eq_some lruStep).mp h
    have hmoved := lruStep_moved hstep hacts.1 hok
    exact hmoved.trans (ih hrest hacts.2 (ok_moved hmoved hok))

theorem lruRun_invariant {Inv : LruSystem → Prop} {max : Int} (hnew : Inv (newLruSystem max))
    (hmoved : ∀ s s', Ok s.lru → Inv s → LruMoved P s s' → Inv s') (hacts : ∀ a ∈ acts, a.Gives P)
    (h : run lruStep (newLruSystem max) acts = some s') : Inv s' := by
  have hok : Ok (newLruSystem max).lru := ok_newLRU max
  have hrun := lruRun_moved h hacts hok
  clear h
  induction hrun with
  | refl => exact hnew
  | tail hrun hstep ih => exact hmoved _ _ (ok_moved hrun hok) ih hstep

/-! ## Whole calls as runs -/

theorem run_flight (c : Lru) (key cmd : Bytes) (ttl now : Int) (closing closed : List Nat)
    (log : List CacheEvent) :
    ∃ ids outs, run lruStep ⟨c, closing, closed, log⟩
        [.look now [(key, cmd, ttl)], .move ids, .opens now [(key, cmd, ttl)] outs] =
      some ⟨(c.flight key cmd ttl now).1, closing, closed,
        log ++ [FlightsOut.event now (key, cmd, ttl)
          ((c.flight key cmd ttl now).2.2.elim .missed
            fun id => .ofValue id (c.flight key cmd ttl now).2.1)]⟩ := by
  cases hlook : c.look key cmd now with
  | some r =>
    obtain ⟨k, id, v⟩ := r
    have hflight : ∃ ids : List Nat, c.flight key cmd ttl now =
        (ids.foldl Lru.moveToBack (c.hit k), v, some id) := by
      unfold flight
      rw [hlook]
      dsimp only
      split
      · exact ⟨[id], rfl⟩
      · exact ⟨[], rfl⟩
    have hlooked : lruStep ⟨c, closing, closed, log⟩ (.look now [(key, cmd, ttl)]) =
        some ⟨c.hit k, closing, closed,
          log ++ [FlightsOut.event now (key, cmd, ttl) (.ofValue id v)]⟩ := by
      unfold lruStep lookAll
      dsimp only
      rw [hlook]
      rw [lookEvents_ofValue]
      rfl
    obtain ⟨ids, hids⟩ := hflight
    refine ⟨ids, [], ?_⟩
    rw [hids, run_cons_eq_some]
    refine ⟨_, hlooked, ?_⟩
    show some (LruSystem.mk _ closing closed (log ++ [_] ++ [])) = _
    rw [append_nil]
    rfl
  | none =>
    have hlooked : lruStep ⟨c, closing, closed, log⟩ (.look now [(key, cmd, ttl)]) =
        some ⟨c, closing, closed, log⟩ := by
      unfold lruStep lookAll
      dsimp only
      rw [hlook]
      show some (LruSystem.mk c closing closed (log ++ [])) = _
      rw [append_nil]
    simp only [run_cons_eq_some]
    have hmoved : lruStep ⟨c, closing, closed, log⟩ (.move []) =
        some ⟨c, closing, closed, log⟩ := rfl
    refine ⟨[], [.missed], _, hlooked, _, hmoved, _, ?_, rfl⟩
    unfold flight
    rw [hlook]
    unfold lruStep openAll
    dsimp only
    generalize c.openFlight key cmd ttl now = r
    obtain ⟨c', looked⟩ := r
    cases looked <;> rfl

end Rueidis
