import Rueidis.Cache.LruShape
import Rueidis.Cache.Contract

/-!
# What the sections of the cache do

One lemma for each section, in terms of the places of the entries: which entry is found under a key
and a command before and after it.
-/

namespace Rueidis

open List Option AList

namespace Lru

variable {c c' : Lru} {key key' cmd cmd' : Bytes} {k k' id : Nat} {ttl now : Int}

/-! ## The key cache of a key -/

/-- `c'` is `c` with the key cache `k` for `key`, which may still be empty. -/
structure KeyReady (c c' : Lru) (key : Bytes) (k : Nat) : Prop where
  linked : Linked c'
  found : c'.keyCache key = some k
  place : ∀ key' cmd', c'.elem key' cmd' = c.elem key' cmd'
  filled : ∀ key' k', key' ≠ key → c'.keyCache key' = some k' → (c'.kc k').cache.entries ≠ []
  entries : c'.entries = c.entries
  list : c'.list = c.list
  size : c'.size = c.size
  max : c'.max = c.max
  store : c'.store.isSome = c.store.isSome
  same : ∀ cmd id, c.elem key cmd = some id → c' = c

theorem ensureKey_new (h : Ok c) (hs : c.store.isSome) (hnone : c.keyCache key = none) :
    KeyReady c { c with
        kcs := c.kcs.alloc { key := key }
        store := c.store.map (·.insert key c.kcs.next) } key c.kcs.next := by
  obtain ⟨store, hstore⟩ := isSome_iff_exists.mp hs
  generalize hc : ({ c with
      kcs := c.kcs.alloc { key := key }
      store := c.store.map (·.insert key c.kcs.next) } : Lru) = c'
  have hfound : c'.keyCache key = some c.kcs.next := by
    rw [← hc]
    unfold keyCache
    rw [hstore, map_some, bind_some, lookup_insert]
  have hothers : ∀ key' ≠ key, c'.keyCache key' = c.keyCache key' := by
    intro key' hne
    rw [← hc]
    unfold keyCache
    rw [hstore, map_some, bind_some, bind_some, lookup_insert_ne hne]
  have hself : c'.kc c.kcs.next = { key := key } := by
    rw [← hc]
    exact Heap.get_alloc_self ..
  have hold : ∀ key' k', c.keyCache key' = some k' → c'.kc k' = c.kc k' := by
    intro key' k' hk'
    have := (h.key _ _ hk').2
    rw [← hc]
    exact Heap.get_alloc_ne _ _ (by omega)
  -- the new key cache is empty, so every entry is found where it was
  have hplace : ∀ key' cmd', c'.elem key' cmd' = c.elem key' cmd' := by
    intro key' cmd'
    unfold elem
    by_cases hkey : key' = key
    · subst hkey
      rw [hfound, hnone, bind_some, bind_none, hself, lookup_empty]
    · rw [hothers key' hkey]
      cases hk' : c.keyCache key' with
      | none => rfl
      | some k' => rw [bind_some, bind_some, hold _ _ hk']
  have hentry : ∀ id, c'.entry id = c.entry id := by
    intro id
    rw [← hc]
    rfl
  have horder : c'.order = c.order := by
    rw [← hc]
    rfl
  refine ⟨⟨?_, ?_, ?_, ?_, ?_⟩, hfound, hplace, ?_, ?_, ?_, ?_, ?_, ?_, ?_⟩
  · intro key' k' hk'
    by_cases hkey : key' = key
    · subst hkey
      rw [hfound] at hk'
      cases hk'
      rw [hself, ← hc]
      exact ⟨rfl, Nat.lt_succ_self _⟩
    · rw [hothers key' hkey] at hk'
      obtain ⟨hname, hlt⟩ := h.key _ _ hk'
      rw [hold _ _ hk', ← hc]
      exact ⟨hname, Nat.lt_succ_of_lt hlt⟩
  · intro key' k' cmd' id' hk' hid'
    have hlt : c'.entries = c.entries := by
      rw [← hc]
    rw [hentry, hlt]
    by_cases hkey : key' = key
    · subst hkey
      rw [hfound] at hk'
      cases hk'
      rw [hself, lookup_empty] at hid'
      cases hid'
    · rw [hothers key' hkey] at hk'
      rw [hold _ _ hk'] at hid'
      exact h.back _ _ _ _ hk' hid'
  · rw [horder]
    exact h.once
  · intro id
    rw [horder, h.mem]
    simp only [hplace]
  · rw [← hc]
    rw [isSome_map, h.opened]
  · intro key' k' hne hk'
    rw [hothers key' hne] at hk'
    rw [hold _ _ hk']
    exact h.noEmptyKey _ _ hk'
  · rw [← hc]
  · rw [← hc]
  · rw [← hc]
  · rw [← hc]
  · rw [← hc]
    exact isSome_map
  · intro cmd id hid
    unfold elem at hid
    rw [hnone] at hid
    cases hid

theorem ensureKey_ready (h : Ok c) (hs : c.store.isSome) (key : Bytes) :
    KeyReady c (c.ensureKey key).1 key (c.ensureKey key).2 := by
  unfold ensureKey
  cases hk : c.keyCache key with
  | none => exact ensureKey_new h hs hk
  | some k =>
    exact ⟨h.toLinked, hk, fun _ _ => rfl, fun key' k' _ hk' => h.noEmptyKey key' k' hk',
      rfl, rfl, rfl, rfl, rfl, fun _ _ _ => rfl⟩

/-! ## The last section of a flight -/

def pendingEntry (k : Nat) (cmd : Bytes) (ttl now : Int) : CacheEntry :=
  { cmd := cmd, kc := k, val := ({} : RedisMessage).setExpireAt (unixMilli (now + ttl)) }

inductive Opened (c : Lru) (key cmd : Bytes) (ttl now : Int) : Lru × Looked → Prop where
  | closed (hs : c.store = none) : Opened c key cmd ttl now (c, .closed)
  | value (c' : Lru) (id : Nat) (hplace : c.elem key cmd = some id)
      (hlive : Live (c.entry id).val now) (ht : Touched c c') :
      Opened c key cmd ttl now (c', .value id (c.entry id).val)
  | opened (c' : Lru) (k : Nat) (hs : c.store.isSome)
      (hdead : ∀ id, c.elem key cmd = some id → ¬ Live (c.entry id).val now)
      (hok : Ok c') (hs' : c'.store.isSome)
      (hentries : c'.entries = c.entries.alloc (pendingEntry k cmd ttl now))
      (helem : ∀ key' cmd', c'.elem key' cmd' =
        if key' = key ∧ cmd' = cmd then some c.entries.next else c.elem key' cmd')
      (hsize : c'.size = c.size - ((c.elem key cmd).elim 0 fun id => (c.entry id).size))
      (horder : c'.order = (c.elem key cmd).elim c.order c.order.erase ++ [c.entries.next])
      (hmax : c'.max = c.max) :
      Opened c key cmd ttl now (c', .opened c.entries.next)

theorem opened_push {c₁ : Lru} {old : Option Nat} (hr : KeyReady c c₁ key k)
    (h : Ok c) (hs : c.store.isSome) (hold : (c₁.kc k).cache.lookup cmd = old)
    (hdead : ∀ id, old = some id → ¬ Live (c.entry id).val now) :
    Opened c key cmd ttl now
      ((c₁.expire old).push k cmd ttl now, .opened (c₁.expire old).entries.next) := by
  have hplace : c₁.elem key cmd = old := by
    unfold elem
    rw [hr.found, bind_some, hold]
  have hopen : c₁.list.isSome := by
    rw [hr.list, h.opened, hs]
  rw [entries_expire, hr.entries]
  have hwas : c.elem key cmd = old := by
    rw [← hr.place, hplace]
  refine .opened _ k hs ?_ (hr.linked.push hr.found hr.filled hopen hplace) ?_ ?_ ?_ ?_ ?_ ?_
  · intro id hid
    apply hdead
    rw [← hplace, hr.place, hid]
  · have hstore : ((c₁.expire old).push k cmd ttl now).store = c₁.store := by cases old <;> rfl
    rw [hstore, hr.store, hs]
  · show (c₁.expire old).entries.alloc _ = _
    rw [entries_expire, hr.entries]
    rfl
  · intro key' cmd'
    rw [elem_expire_push, elem_push hr.linked hr.found, hr.entries, hr.place]
  · rw [hwas, ← hr.size]
    cases old with
    | none => exact (Int.sub_zero _).symm
    | some id =>
      show c₁.size - (c₁.entry id).size = c₁.size - (c.entry id).size
      unfold entry
      rw [hr.entries]
  · rw [order_push (by rw [isSome_list_expire]; exact hopen), entries_expire, order_expire, hwas,
      hr.entries]
    unfold order
    rw [hr.list]
  · rw [← hr.max]
    cases old <;> rfl

theorem openFlight_cases (h : Ok c) (key cmd : Bytes) (ttl now : Int) :
    Opened c key cmd ttl now (c.openFlight key cmd ttl now) := by
  unfold openFlight
  by_cases hnone : c.store.isNone
  · rw [if_pos hnone]
    exact .closed (isNone_iff_eq_none.mp hnone)
  · rw [if_neg hnone]
    have hs : c.store.isSome := by
      rw [← not_isNone, Bool.not_eq_true']
      exact eq_false_of_ne_true hnone
    have hr := ensureKey_ready h hs key
    generalize c.ensureKey key = p at hr
    obtain ⟨c₁, k⟩ := p
    dsimp only at hr ⊢
    have hentry : ∀ id, c₁.entry id = c.entry id := by
      intro id
      unfold entry
      rw [hr.entries]
    cases hold : (c₁.kc k).cache.lookup cmd with
    | none =>
      exact opened_push hr h hs hold nofun
    | some id =>
      dsimp only
      by_cases hlive : Live (c₁.entry id).val now
      · have hplace : c.elem key cmd = some id := by
          rw [← hr.place]
          exact elem_eq_some.mpr ⟨k, hr.found, hold⟩
        rw [if_pos hlive, hentry]
        rw [hentry] at hlive
        rw [hr.same cmd id hplace]
        exact .value _ id hplace hlive ((Touched.hit c k).trans (Touched.moveToBack _ id))
      · rw [if_neg hlive]
        apply opened_push hr h hs hold
        intro id' hid'
        cases hid'
        rw [← hentry]
        exact hlive

/-! ## Dropping values -/

inductive Drops : Lru → Lru → Prop where
  | refl (c : Lru) : Drops c c
  | drop {c c' : Lru} {key cmd : Bytes} {k id : Nat} (hk : c.keyCache key = some k)
      (hid : (c.kc k).cache.lookup cmd = some id) (hvalue : ¬ (c.entry id).pending)
      (hrest : Drops (c.drop key k cmd id) c') : Drops c c'

structure Shrunk (c c' : Lru) : Prop where
  entries : c'.entries = c.entries
  store : c'.store.isSome = c.store.isSome
  max : c'.max = c.max
  sub : ∀ key cmd id, c'.elem key cmd = some id → c.elem key cmd = some id
  keep : ∀ key cmd id, c.elem key cmd = some id → (c.entry id).pending →
    c'.elem key cmd = some id

theorem Shrunk.entry (h : Shrunk c c') (id : Nat) : c'.entry id = c.entry id := by
  unfold Lru.entry
  rw [h.entries]

namespace Drops

theorem trans {c'' : Lru} (h : Drops c c') (h' : Drops c' c'') : Drops c c'' := by
  induction h with
  | refl c => exact h'
  | drop hk hid hvalue _ ih => exact .drop hk hid hvalue (ih h')

theorem ok (h : Drops c c') (hc : Ok c) : Ok c' := by
  induction h with
  | refl c => exact hc
  | drop hk hid hvalue _ ih => exact ih (hc.drop hk hid)

theorem shrunk (h : Drops c c') (hc : Ok c) : Shrunk c c' := by
  induction h with
  | refl c => exact ⟨rfl, rfl, rfl, fun _ _ _ h => h, fun _ _ _ h _ => h⟩
  | @drop c c' key cmd k id hk hid hvalue _ ih =>
    have hs := ih (hc.drop hk hid)
    refine ⟨hs.entries, ?_, hs.max, ?_, ?_⟩
    · rw [hs.store, isSome_store_drop]
    · intro key' cmd' id' hid'
      have hplace := hs.sub _ _ _ hid'
      rw [elem_drop hc.toLinked hk] at hplace
      split at hplace
      · cases hplace
      · exact hplace
    · intro key' cmd' id' hid' hp
      apply hs.keep _ _ _ _ hp
      rw [elem_drop hc.toLinked hk, if_neg _, hid']
      rintro ⟨rfl, rfl⟩
      rw [elem_eq_some.mpr ⟨k, hk, hid⟩] at hid'
      cases hid'
      exact hvalue hp

end Drops

/-! ## Eviction -/

theorem Ok.place_of_mem (h : Ok c) (hid : id ∈ c.order) :
    c.keyCache (c.kc (c.entry id).kc).key = some (c.entry id).kc ∧
      (c.kc (c.entry id).kc).cache.lookup (c.entry id).cmd = some id := by
  obtain ⟨key, cmd, hplace⟩ := (h.mem id).mp hid
  obtain ⟨k, hk, hlook⟩ := elem_eq_some.mp hplace
  obtain ⟨hkc, hcmd, -⟩ := h.back _ _ _ _ hk hlook
  rw [hkc, hcmd, (h.key _ _ hk).1]
  exact ⟨hk, hlook⟩

theorem evict_drops (ids : List Nat) (h : Ok c) (hnodup : ids.Nodup)
    (hids : ∀ id ∈ ids, id ∈ c.order) : Drops c (c.evict ids) := by
  induction ids generalizing c with
  | nil => exact .refl c
  | cons id ids ih =>
    rw [nodup_cons] at hnodup
    rw [forall_mem_cons] at hids
    unfold evict
    by_cases hfits : c.size ≤ c.max
    · rw [if_pos hfits]
      exact .refl c
    · rw [if_neg hfits]
      by_cases hp : (c.entry id).pending
      · rw [if_pos hp]
        exact ih h hnodup.2 hids.2
      · rw [if_neg hp]
        obtain ⟨hk, hlook⟩ := h.place_of_mem hids.1
        apply Drops.drop hk hlook hp
        apply ih (h.drop hk hlook) hnodup.2
        intro id' hid'
        rw [order_drop, h.once.mem_erase_iff]
        refine ⟨?_, hids.2 id' hid'⟩
        rintro rfl
        exact hnodup.1 hid'

/-! ## Delete -/

theorem purgeAll_spec (cmds : List (Sigma fun _ : Bytes => Nat)) (h : Ok c)
    (hnodup : cmds.NodupKeys)
    (hcmds : ∀ p ∈ cmds, c.keyCache key = some k ∧ (c.kc k).cache.lookup p.1 = some p.2) :
    Drops c (c.purgeAll key k cmds) ∧
      (∀ key' ≠ key, (c.purgeAll key k cmds).keyCache key' = c.keyCache key') ∧
      ∀ p ∈ cmds, (c.purgeAll key k cmds).elem key p.1 = some p.2 → (c.entry p.2).pending := by
  induction cmds generalizing c with
  | nil => exact ⟨.refl c, fun _ _ => rfl, nofun⟩
  | cons p cmds ih =>
    obtain ⟨cmd, id⟩ := p
    rw [nodupKeys_cons] at hnodup
    rw [forall_mem_cons] at hcmds
    obtain ⟨⟨hk, hlook⟩, hrest⟩ := hcmds
    unfold purgeAll
    by_cases hp : (c.entry id).pending
    · rw [if_pos hp]
      obtain ⟨hdrops, hkeys, hgone⟩ := ih h hnodup.2 hrest
      refine ⟨hdrops, hkeys, ?_⟩
      rw [forall_mem_cons]
      exact ⟨fun _ => hp, hgone⟩
    · rw [if_neg hp]
      have hok := h.drop hk hlook
      -- a command that comes later keeps the key cache in the store
      have hlater : ∀ p ∈ cmds, (c.drop key k cmd id).keyCache key = some k ∧
          ((c.drop key k cmd id).kc k).cache.lookup p.1 = some p.2 := by
        intro p hmem
        have hne : p.1 ≠ cmd := by
          intro heq
          have hkeys := mem_keys_of_mem hmem
          rw [heq] at hkeys
          exact hnodup.1 hkeys
        have hstill : ((c.kc k).cache.erase cmd).lookup p.1 = some p.2 := by
          rw [lookup_erase_ne hne]
          exact (hrest p hmem).2
        rw [kc_drop_self, keyCache_drop_self c key cmd k id hk, if_neg]
        · exact ⟨rfl, hstill⟩
        · intro hempty
          rw [(entries_eq_nil_iff _).mp hempty] at hstill
          cases hstill
      obtain ⟨hdrops, hkeys, hgone⟩ := ih hok hnodup.2 hlater
      refine ⟨.drop hk hlook hp hdrops, ?_, ?_⟩
      · intro key' hne
        rw [hkeys key' hne, keyCache_drop_ne c key cmd k id hne]
      · rw [forall_mem_cons]
        constructor
        · intro hstill
          have hplace := (hdrops.shrunk hok).sub _ _ _ hstill
          rw [elem_drop h.toLinked hk, if_pos ⟨rfl, rfl⟩] at hplace
          cases hplace
        · exact hgone

theorem purge_spec (h : Ok c) (key : Bytes) :
    Drops c (c.purge key (c.keyCache key)) ∧
      (∀ key' ≠ key, (c.purge key (c.keyCache key)).keyCache key' = c.keyCache key') ∧
      ∀ cmd id, (c.purge key (c.keyCache key)).elem key cmd = some id → (c.entry id).pending := by
  cases hk : c.keyCache key with
  | none =>
    refine ⟨.refl c, fun _ _ => rfl, ?_⟩
    intro cmd id hid
    obtain ⟨k, hk', -⟩ := elem_eq_some.mp hid
    exact absurd (hk.symm.trans hk') nofun
  | some k =>
    have hcmds : ∀ p ∈ (c.kc k).cache.entries,
        c.keyCache key = some k ∧ (c.kc k).cache.lookup p.1 = some p.2 := by
      intro p hp
      exact ⟨hk, mem_lookup_iff.mpr hp⟩
    obtain ⟨hdrops, hkeys, hgone⟩ :=
      purgeAll_spec (c.kc k).cache.entries h (c.kc k).cache.nodupKeys hcmds
    refine ⟨hdrops, hkeys, ?_⟩
    intro cmd id hid
    obtain ⟨k', hk', hlook⟩ := elem_eq_some.mp ((hdrops.shrunk h).sub _ _ _ hid)
    rw [hk] at hk'
    cases hk'
    exact hgone ⟨cmd, id⟩ (mem_lookup_iff.mp hlook) hid

-- the loop of `Delete(nil)` over the keys of the store
theorem purgeKeys_spec (kvs : List (Sigma fun _ : Bytes => Nat)) (h : Ok c) (hnodup : kvs.NodupKeys)
    (hkvs : ∀ p ∈ kvs, c.keyCache p.1 = some p.2) :
    let c' := kvs.foldl (fun c kv => c.purge kv.1 (some kv.2)) c
    Drops c c' ∧ ∀ p ∈ kvs, ∀ cmd id, c'.elem p.1 cmd = some id → (c.entry id).pending := by
  induction kvs generalizing c with
  | nil => exact ⟨.refl c, nofun⟩
  | cons p kvs ih =>
    rw [nodupKeys_cons] at hnodup
    rw [forall_mem_cons] at hkvs
    obtain ⟨hdrops, hkeys, hgone⟩ := purge_spec h p.1
    rw [hkvs.1] at hdrops hkeys hgone
    have hlater : ∀ q ∈ kvs, (c.purge p.1 (some p.2)).keyCache q.1 = some q.2 := by
      intro q hq
      rw [hkeys q.1]
      · exact hkvs.2 q hq
      · intro heq
        have hmem := mem_keys_of_mem hq
        rw [heq] at hmem
        exact hnodup.1 hmem
    obtain ⟨hdrops', hgone'⟩ := ih (hdrops.ok h) hnodup.2 hlater
    refine ⟨hdrops.trans hdrops', ?_⟩
    rw [forall_mem_cons]
    constructor
    · intro cmd id hid
      exact hgone cmd id ((hdrops'.shrunk (hdrops.ok h)).sub _ _ _ hid)
    · intro q hq cmd id hid
      rw [← (hdrops.shrunk h).entry]
      exact hgone' q hq cmd id hid

theorem purgeNamed_spec (keys : List RedisMessage) (h : Ok c) :
    let c' := keys.foldl (fun c k => c.purge k.string (c.keyCache k.string)) c
    Drops c c' ∧
      ∀ k ∈ keys, ∀ cmd id, c'.elem k.string cmd = some id → (c.entry id).pending := by
  induction keys generalizing c with
  | nil => exact ⟨.refl c, nofun⟩
  | cons k keys ih =>
    obtain ⟨hdrops, -, hgone⟩ := purge_spec h k.string
    obtain ⟨hdrops', hgone'⟩ := ih (hdrops.ok h)
    refine ⟨hdrops.trans hdrops', ?_⟩
    rw [forall_mem_cons]
    constructor
    · intro cmd id hid
      exact hgone cmd id ((hdrops'.shrunk (hdrops.ok h)).sub _ _ _ hid)
    · intro q hq cmd id hid
      rw [← (hdrops.shrunk h).entry]
      exact hgone' q hq cmd id hid

theorem delete_spec (h : Ok c) (keys : Option (List RedisMessage)) :
    Drops c (c.delete keys) ∧
      ∀ key cmd id, Covers keys key → (c.delete keys).elem key cmd = some id →
        (c.entry id).pending := by
  cases keys with
  | none =>
    have hkvs : ∀ p ∈ (c.store.getD ∅).entries, c.keyCache p.1 = some p.2 := by
      intro p hp
      unfold keyCache
      cases hs : c.store with
      | none =>
        rw [hs] at hp
        cases hp
      | some store =>
        rw [hs] at hp
        exact mem_lookup_iff.mpr hp
    obtain ⟨hdrops, hgone⟩ :=
      purgeKeys_spec (c.store.getD ∅).entries h (c.store.getD ∅).nodupKeys hkvs
    refine ⟨hdrops, ?_⟩
    intro key cmd id _ hid
    obtain ⟨k, hk, -⟩ := elem_eq_some.mp ((hdrops.shrunk h).sub _ _ _ hid)
    refine hgone ⟨key, k⟩ ?_ cmd id hid
    unfold keyCache at hk
    cases hs : c.store with
    | none =>
      rw [hs] at hk
      cases hk
    | some store =>
      rw [hs] at hk
      exact mem_lookup_iff.mp hk
  | some keys =>
    obtain ⟨hdrops, hgone⟩ := purgeNamed_spec keys h
    refine ⟨hdrops, ?_⟩
    rintro key cmd id ⟨k, hk, rfl⟩ hid
    exact hgone k hk cmd id hid

/-! ## Update and Cancel -/

-- what an entry holds and how large it is does not matter for its place
theorem Ok.setEntry (h : Ok c) (id : Nat) (e : CacheEntry) (n : Int) (hkc : e.kc = (c.entry id).kc)
    (hcmd : e.cmd = (c.entry id).cmd) : Ok { c.setEntry id e with size := n } where
  key := h.key
  back := by
    intro key k cmd id' hk hid
    obtain ⟨h1, h2, h3⟩ := h.back key k cmd id' hk hid
    show ((c.entries.set id e).get id').kc = k ∧ ((c.entries.set id e).get id').cmd = cmd ∧ _
    by_cases hii : id = id'
    · subst hii
      rw [Heap.get_set_self]
      exact ⟨hkc.trans h1, hcmd.trans h2, h3⟩
    · rw [Heap.get_set_ne _ _ hii]
      exact ⟨h1, h2, h3⟩
  once := h.once
  mem := h.mem
  opened := h.opened
  noEmptyKey := h.noEmptyKey

inductive Updated (c : Lru) (key cmd : Bytes) (value : RedisMessage) :
    Lru × Int64 × Option Nat → Prop where
  | absent (hplace : c.elem key cmd = none) : Updated c key cmd value (c, 0, none)
  | kept (c' : Lru) (id : Nat) (hplace : c.elem key cmd = some id)
      (hvalue : ¬ (c.entry id).pending) (hdrops : Drops c c') :
      Updated c key cmd value (c', 0, none)
  | stored (c' : Lru) (id : Nat) (hplace : c.elem key cmd = some id)
      (hp : (c.entry id).pending)
      (hdrops : Drops (c.fill key cmd id (stamped (c.entry id) value).2) c') :
      Updated c key cmd value (c', (stamped (c.entry id) value).1, some id)

theorem Ok.fill (h : Ok c) (key cmd : Bytes) (id : Nat) (value : RedisMessage) :
    Ok (c.fill key cmd id value) := h.setEntry id _ _ rfl rfl

theorem update_cases (h : Ok c) (key cmd : Bytes) (value : RedisMessage) :
    Updated c key cmd value (c.update key cmd value) := by
  unfold update
  cases hplace : c.elem key cmd with
  | none => exact .absent hplace
  | some id =>
    dsimp only
    by_cases hp : (c.entry id).pending
    · rw [if_pos hp]
      have hok := h.fill key cmd id (stamped (c.entry id) value).2
      exact .stored _ id hplace hp (evict_drops _ hok hok.once fun _ h => h)
    · rw [if_neg hp]
      exact .kept _ id hplace hp (evict_drops _ h h.once fun _ h => h)

inductive Cancelled (c : Lru) (key cmd : Bytes) (err : Err) : Lru × Option Nat → Prop where
  | nothing (hplace : ∀ id, c.elem key cmd = some id → ¬ (c.entry id).pending) :
      Cancelled c key cmd err (c, none)
  | removed (c' : Lru) (id : Nat) (hplace : c.elem key cmd = some id) (hp : (c.entry id).pending)
      (hok : Ok c') (hentries : c'.entries = c.entries.set id { c.entry id with err := some err })
      (hs : c'.store.isSome = c.store.isSome)
      (helem : ∀ key' cmd', c'.elem key' cmd' =
        if key' = key ∧ cmd' = cmd then none else c.elem key' cmd')
      (horder : c'.order = c.order.erase id) (hsize : c'.size = c.size) (hmax : c'.max = c.max) :
      Cancelled c key cmd err (c', some id)

theorem cancel_cases (h : Ok c) (key cmd : Bytes) (err : Err) :
    Cancelled c key cmd err (c.cancel key cmd err) := by
  unfold cancel
  cases hk : c.keyCache key with
  | none =>
    refine .nothing fun id hid => ?_
    obtain ⟨k, hk', -⟩ := elem_eq_some.mp hid
    exact absurd (hk.symm.trans hk') nofun
  | some k =>
    dsimp only
    cases hlook : (c.kc k).cache.lookup cmd with
    | none =>
      refine .nothing fun id hid => ?_
      obtain ⟨k', hk', hlook'⟩ := elem_eq_some.mp hid
      cases hk.symm.trans hk'
      exact absurd (hlook.symm.trans hlook') nofun
    | some id =>
      have hplace : c.elem key cmd = some id := elem_eq_some.mpr ⟨k, hk, hlook⟩
      dsimp only
      by_cases hp : (c.entry id).pending
      · rw [if_pos hp]
        have hset : Ok (c.setEntry id { c.entry id with err := some err }) :=
          h.setEntry id _ c.size rfl rfl
        -- `Cancel` removes the entry as the other sections do, but leaves the count alone
        have hdrop := hset.drop hk hlook
        refine .removed _ id hplace hp ?_ rfl ?_ ?_ ?_ rfl rfl
        · exact ⟨⟨hdrop.key, hdrop.back, hdrop.once, hdrop.mem, hdrop.opened⟩,
            hdrop.noEmptyKey⟩
        · exact isSome_store_drop (c.setEntry id _) key cmd k id
        · intro key' cmd'
          exact elem_drop hset.toLinked hk cmd id key' cmd'
        · exact order_drop (c.setEntry id _) key cmd k id
      · rw [if_neg hp]
        refine .nothing fun id' hid' => ?_
        cases hplace.symm.trans hid'
        exact hp

/-! ## Close -/

theorem mem_pendings :
    id ∈ c.pendings ↔ (c.entry id).pending ∧ ∃ key cmd, c.elem key cmd = some id := by
  have hstore : ∀ key k, (⟨key, k⟩ : Sigma fun _ : Bytes => Nat) ∈ (c.store.getD ∅).entries ↔
      c.keyCache key = some k := by
    intro key k
    unfold keyCache
    cases c.store with
    | none => simp
    | some store => exact mem_lookup_iff.symm
  unfold pendings
  rw [mem_flatMap]
  constructor
  · rintro ⟨⟨key, k⟩, hkv, hid⟩
    rw [mem_filter, List.mem_map] at hid
    obtain ⟨⟨⟨cmd, id'⟩, hlook, rfl⟩, hp⟩ := hid
    refine ⟨of_decide_eq_true hp, key, cmd, ?_⟩
    exact elem_eq_some.mpr ⟨k, (hstore key k).mp hkv, mem_lookup_iff.mpr hlook⟩
  · rintro ⟨hp, key, cmd, hid⟩
    obtain ⟨k, hk, hlook⟩ := elem_eq_some.mp hid
    refine ⟨⟨key, k⟩, (hstore key k).mpr hk, ?_⟩
    rw [mem_filter, List.mem_map]
    exact ⟨⟨⟨cmd, id⟩, mem_lookup_iff.mp hlook, rfl⟩, decide_eq_true hp⟩

end Lru

end Rueidis
