import Rueidis.Cache.Lru

/-!
# The representation of the cache

The list and the two-level map of an open cache agree: the list has exactly the entries of the map,
each once, and an entry points back to its key cache.
-/

namespace Rueidis

open List Option AList Heap

namespace Lru

variable {c c' : Lru} {key key' cmd cmd' : Bytes} {k k' id : Nat}

def order (c : Lru) : List Nat := c.list.getD []

/-- The links between the map, the list and the entries.  A key cache may be empty here, as it is
while its first entry is made. -/
structure Linked (c : Lru) : Prop where
  key : ∀ key k, c.keyCache key = some k → (c.kc k).key = key ∧ k < c.kcs.next
  back : ∀ key k cmd id, c.keyCache key = some k → (c.kc k).cache.lookup cmd = some id →
    (c.entry id).kc = k ∧ (c.entry id).cmd = cmd ∧ id < c.entries.next
  once : c.order.Nodup
  mem : ∀ id, id ∈ c.order ↔ ∃ key cmd, c.elem key cmd = some id
  opened : c.list.isSome = c.store.isSome

def NoEmptyKey (c : Lru) : Prop := ∀ key k, c.keyCache key = some k → (c.kc k).cache.entries ≠ []

structure Ok (c : Lru) : Prop extends Linked c where
  noEmptyKey : NoEmptyKey c

/-! ## Looking up -/

theorem elem_eq_some :
    c.elem key cmd = some id ↔
      ∃ k, c.keyCache key = some k ∧ (c.kc k).cache.lookup cmd = some id :=
  bind_eq_some_iff

theorem entries_eq_nil_iff (m : StringMap) : m.entries = [] ↔ ∀ a, m.lookup a = none := by
  constructor
  · intro h a
    rw [AList.lookup_eq_none, AList.mem_keys]
    show a ∉ m.entries.keys
    rw [h]
    exact not_mem_nil
  · intro h
    cases hm : m.entries with
    | nil => rfl
    | cons p ps =>
      have hp : p.2 ∈ m.lookup p.1 := by
        rw [mem_lookup_iff, hm]
        exact mem_cons_self
      rw [h] at hp
      cases hp

namespace Linked

theorem key_ne (h : Linked c) (hk : c.keyCache key = some k) (hk' : c.keyCache key' = some k')
    (hne : key' ≠ key) : k' ≠ k := by
  rintro rfl
  exact hne ((h.key _ _ hk').1.symm.trans (h.key _ _ hk).1)

-- an entry has one place in the map
theorem elem_inj (h : Linked c) (h₁ : c.elem key cmd = some id)
    (h₂ : c.elem key' cmd' = some id) : key' = key ∧ cmd' = cmd := by
  obtain ⟨k, hk, hid⟩ := elem_eq_some.mp h₁
  obtain ⟨k', hk', hid'⟩ := elem_eq_some.mp h₂
  obtain ⟨hkc, hcmd, -⟩ := h.back _ _ _ _ hk hid
  obtain ⟨hkc', hcmd', -⟩ := h.back _ _ _ _ hk' hid'
  constructor
  · rw [← (h.key _ _ hk).1, ← (h.key _ _ hk').1, ← hkc, ← hkc']
  · rw [← hcmd, ← hcmd']

theorem lt_next (h : Linked c) (hid : c.elem key cmd = some id) : id < c.entries.next := by
  obtain ⟨k, hk, hid⟩ := elem_eq_some.mp hid
  exact (h.back _ _ _ _ hk hid).2.2

theorem mem_order (h : Linked c) (hid : c.elem key cmd = some id) : id ∈ c.order :=
  (h.mem id).mpr ⟨key, cmd, hid⟩

end Linked

/-! ## Hits and moves -/

@[simp] theorem cache_hit (c : Lru) (k k' : Nat) : ((c.hit k).kc k').cache = (c.kc k').cache :=
  proj_set (f := KeyCache.cache) _ _ (by rfl) k'

@[simp] theorem key_hit (c : Lru) (k k' : Nat) : ((c.hit k).kc k').key = (c.kc k').key :=
  proj_set (f := KeyCache.key) _ _ (by rfl) k'

/-- The same entries in the same places; the list may be in another order. -/
structure Touched (c c' : Lru) : Prop where
  entries : c'.entries = c.entries
  store : c'.store = c.store
  next : c'.kcs.next = c.kcs.next
  cache : ∀ k, (c'.kc k).cache = (c.kc k).cache
  name : ∀ k, (c'.kc k).key = (c.kc k).key
  list : c'.list.isSome = c.list.isSome
  order : c'.order.Perm c.order
  size : c'.size = c.size
  max : c'.max = c.max

namespace Touched

theorem refl (c : Lru) : Touched c c :=
  ⟨rfl, rfl, rfl, fun _ => rfl, fun _ => rfl, rfl, .refl _, rfl, rfl⟩

variable (h : Touched c c')

include h

theorem trans {c'' : Lru} (h' : Touched c' c'') : Touched c c'' where
  entries := h'.entries.trans h.entries
  store := h'.store.trans h.store
  next := h'.next.trans h.next
  cache := fun k => (h'.cache k).trans (h.cache k)
  name := fun k => (h'.name k).trans (h.name k)
  list := h'.list.trans h.list
  order := h'.order.trans h.order
  size := h'.size.trans h.size
  max := h'.max.trans h.max

theorem entry (id : Nat) : c'.entry id = c.entry id := by
  unfold Lru.entry
  rw [h.entries]

theorem keyCache (key : Bytes) : c'.keyCache key = c.keyCache key := by
  unfold Lru.keyCache
  rw [h.store]

theorem elem (key cmd : Bytes) : c'.elem key cmd = c.elem key cmd := by
  unfold Lru.elem
  rw [h.keyCache]
  simp only [h.cache]

theorem linked (hc : Linked c) : Linked c' where
  key := by
    simp only [h.keyCache, h.name, h.next]
    exact hc.key
  back := by
    simp only [h.keyCache, h.cache, h.entry, h.entries]
    exact hc.back
  once := h.order.nodup_iff.mpr hc.once
  mem := by
    simp only [h.order.mem_iff, h.elem]
    exact hc.mem
  opened := by rw [h.list, h.store, hc.opened]

theorem ok (hc : Ok c) : Ok c' where
  toLinked := h.linked hc.toLinked
  noEmptyKey := by
    unfold NoEmptyKey
    simp only [h.keyCache, h.cache]
    exact hc.noEmptyKey

omit h

theorem hit (c : Lru) (k : Nat) : Touched c (c.hit k) where
  entries := rfl
  store := rfl
  next := rfl
  cache := cache_hit c k
  name := key_hit c k
  list := rfl
  order := .refl _
  size := rfl
  max := rfl

theorem moveToBack (c : Lru) (id : Nat) : Touched c (c.moveToBack id) where
  entries := rfl
  store := rfl
  next := rfl
  cache := fun _ => rfl
  name := fun _ => rfl
  list := by
    unfold Lru.moveToBack
    rw [isSome_map]
  order := by
    unfold Lru.order Lru.moveToBack
    cases c.list with
    | none => exact .refl _
    | some l =>
      rw [map_some, getD_some, getD_some]
      split
      next hid => exact perm_append_comm.trans (perm_cons_erase hid).symm
      · exact .refl _
  size := rfl
  max := rfl

end Touched

/-! ## Removing an entry -/

section Drop

variable (c key k cmd id)

theorem kc_drop_self :
    (c.drop key k cmd id).kc k = { c.kc k with cache := (c.kc k).cache.erase cmd } :=
  get_set_self ..

theorem kc_drop_ne (h : k ≠ k') : (c.drop key k cmd id).kc k' = c.kc k' := get_set_ne _ _ h

theorem key_drop (k' : Nat) : ((c.drop key k cmd id).kc k').key = (c.kc k').key :=
  proj_set (f := KeyCache.key) _ _ (by rfl) k'

theorem lookup_drop (k' : Nat) (cmd' : Bytes) : ((c.drop key k cmd id).kc k').cache.lookup cmd' =
    if k = k' ∧ cmd' = cmd then none else (c.kc k').cache.lookup cmd' := by
  by_cases hkk : k = k'
  · subst hkk
    rw [kc_drop_self]
    by_cases hcmd : cmd' = cmd
    · rw [if_pos ⟨rfl, hcmd⟩, hcmd, lookup_erase]
    · rw [if_neg (fun hc => hcmd hc.2), lookup_erase_ne hcmd]
  · rw [kc_drop_ne c key cmd k id hkk, if_neg (fun hc => hkk hc.1)]

theorem order_drop : (c.drop key k cmd id).order = c.order.erase id := by
  unfold order drop unlink
  cases c.list <;> rfl

theorem isSome_store_drop : (c.drop key k cmd id).store.isSome = c.store.isSome := by
  unfold drop unlink
  dsimp only
  split
  · rw [isSome_map]
  · rfl

theorem keyCache_drop_ne (h : key' ≠ key) :
    (c.drop key k cmd id).keyCache key' = c.keyCache key' := by
  unfold keyCache drop unlink
  dsimp only
  split
  · cases c.store with
    | none => rfl
    | some store =>
      rw [map_some, bind_some, bind_some, lookup_erase_ne h]
  · rfl

theorem keyCache_drop_self (hk : c.keyCache key = some k) :
    (c.drop key k cmd id).keyCache key =
      if ((c.kc k).cache.erase cmd).entries = [] then none else some k := by
  unfold drop unlink
  unfold keyCache at hk ⊢
  dsimp only
  split
  · cases c.store with
    | none => rfl
    | some store => rw [map_some, bind_some, lookup_erase]
  · exact hk

end Drop

theorem elem_drop (h : Linked c) (hk : c.keyCache key = some k) (cmd : Bytes) (id : Nat)
    (key' cmd' : Bytes) :
    (c.drop key k cmd id).elem key' cmd' =
      if key' = key ∧ cmd' = cmd then none else c.elem key' cmd' := by
  unfold elem
  by_cases hkey : key' = key
  · subst hkey
    have hlook := lookup_drop c key' cmd k id k cmd'
    rw [keyCache_drop_self c key' cmd k id hk, hk, bind_some]
    simp only [true_and] at hlook ⊢
    rw [← hlook]
    split
    next hempty =>
      rw [kc_drop_self, (entries_eq_nil_iff _).mp hempty]
      rfl
    · rfl
  · rw [if_neg (fun hc => hkey hc.1), keyCache_drop_ne c key cmd k id hkey]
    cases hk' : c.keyCache key' with
    | none => rfl
    | some k' =>
      rw [bind_some, bind_some,
        kc_drop_ne c key cmd k id (h.key_ne hk hk' hkey).symm]

theorem Ok.drop (h : Ok c) (hk : c.keyCache key = some k)
    (hid : (c.kc k).cache.lookup cmd = some id) :
    Ok (c.drop key k cmd id) := by
  have hplace : c.elem key cmd = some id := elem_eq_some.mpr ⟨k, hk, hid⟩
  -- the key caches that are left were there before
  have hkeys : ∀ key' k', (c.drop key k cmd id).keyCache key' = some k' →
      c.keyCache key' = some k' ∧
        (key' = key → ((c.kc k).cache.erase cmd).entries ≠ []) := by
    intro key' k' hk'
    by_cases hkey : key' = key
    · subst hkey
      rw [keyCache_drop_self c key' cmd k id hk] at hk'
      split at hk' <;> cases hk'
      next hne => exact ⟨hk, fun _ => hne⟩
    · rw [keyCache_drop_ne c key cmd k id hkey] at hk'
      exact ⟨hk', fun he => absurd he hkey⟩
  refine ⟨⟨?_, ?_, ?_, ?_, ?_⟩, ?_⟩
  · intro key' k' hk'
    rw [key_drop]
    exact h.key _ _ (hkeys key' k' hk').1
  · intro key' k' cmd' id' hk' hid'
    rw [lookup_drop] at hid'
    split at hid'
    · cases hid'
    · exact h.back key' k' cmd' id' (hkeys key' k' hk').1 hid'
  · rw [order_drop]
    exact h.once.erase _
  · intro id'
    rw [order_drop, h.once.mem_erase_iff, h.mem]
    constructor
    · rintro ⟨hne, key', cmd', hplace'⟩
      refine ⟨key', cmd', ?_⟩
      rw [elem_drop h.toLinked hk, if_neg _, hplace']
      rintro ⟨rfl, rfl⟩
      exact hne (some.inj (hplace'.symm.trans hplace))
    · rintro ⟨key', cmd', hplace'⟩
      rw [elem_drop h.toLinked hk] at hplace'
      split at hplace'
      · cases hplace'
      next hother =>
        refine ⟨?_, key', cmd', hplace'⟩
        rintro rfl
        exact hother (h.elem_inj hplace hplace')
  · have hlist : (c.drop key k cmd id).list.isSome = c.list.isSome := isSome_map
    rw [hlist, isSome_store_drop, h.opened]
  · intro key' k' hk'
    obtain ⟨hold, hne⟩ := hkeys key' k' hk'
    by_cases hkk : k = k'
    · subst hkk
      rw [kc_drop_self]
      apply hne
      rw [← (h.key _ _ hold).1, (h.key _ _ hk).1]
    · rw [kc_drop_ne c key cmd k id hkk]
      exact h.noEmptyKey _ _ hold

/-! ## Making an entry -/

def expire (c : Lru) : Option Nat → Lru
  | none => c
  | some id => { c with list := c.list.map (·.erase id), size := c.size - (c.entry id).size }

section Push

variable {ttl now : Int} {old : Option Nat}

theorem kc_push_self : (c.push k cmd ttl now).kc k =
    { c.kc k with cache := (c.kc k).cache.insert cmd c.entries.next } :=
  get_set_self ..

theorem kc_push_ne (h : k ≠ k') : (c.push k cmd ttl now).kc k' = c.kc k' := get_set_ne _ _ h

theorem key_push : ((c.push k cmd ttl now).kc k').key = (c.kc k').key :=
  proj_set (f := KeyCache.key) _ _ (by rfl) k'

theorem lookup_push : ((c.push k cmd ttl now).kc k').cache.lookup cmd' =
    if k = k' ∧ cmd' = cmd then some c.entries.next else (c.kc k').cache.lookup cmd' := by
  by_cases hkk : k = k'
  · subst hkk
    rw [kc_push_self]
    by_cases hcmd : cmd' = cmd
    · rw [if_pos ⟨rfl, hcmd⟩, hcmd, lookup_insert]
    · rw [if_neg (fun hc => hcmd hc.2), lookup_insert_ne hcmd]
  · rw [kc_push_ne hkk, if_neg (fun hc => hkk hc.1)]

theorem entry_push_new : (c.push k cmd ttl now).entry c.entries.next =
    { cmd := cmd, kc := k, val := ({} : RedisMessage).setExpireAt (unixMilli (now + ttl)) } :=
  get_alloc_self ..

theorem entry_push_ne (h : id ≠ c.entries.next) : (c.push k cmd ttl now).entry id = c.entry id :=
  get_alloc_ne _ _ h

theorem order_push (h : c.list.isSome) :
    (c.push k cmd ttl now).order = c.order ++ [c.entries.next] := by
  unfold order push
  cases hl : c.list with
  | none => simp [hl] at h
  | some l => rfl

theorem elem_push (h : Linked c) (hk : c.keyCache key = some k) (key' cmd' : Bytes) :
    (c.push k cmd ttl now).elem key' cmd' =
      if key' = key ∧ cmd' = cmd then some c.entries.next else c.elem key' cmd' := by
  show (c.keyCache key').bind (fun k' => ((c.push k cmd ttl now).kc k').cache.lookup cmd') = _
  unfold elem
  by_cases hkey : key' = key
  · subst hkey
    simp only [hk, bind_some, lookup_push, true_and]
  · rw [if_neg (fun hc => hkey hc.1)]
    cases hk' : c.keyCache key' with
    | none => rfl
    | some k' => rw [bind_some, bind_some, kc_push_ne (h.key_ne hk hk' hkey).symm]

theorem order_expire (c : Lru) : (c.expire old).order = old.elim c.order c.order.erase := by
  cases old with
  | none => rfl
  | some id =>
    unfold order expire
    cases c.list <;> rfl

-- expiring an entry leaves the map and the entries as they are
theorem elem_expire_push (key' cmd' : Bytes) :
    ((c.expire old).push k cmd ttl now).elem key' cmd' =
      (c.push k cmd ttl now).elem key' cmd' := by
  cases old <;> rfl

theorem keyCache_expire_push (key' : Bytes) :
    ((c.expire old).push k cmd ttl now).keyCache key' = c.keyCache key' := by
  cases old <;> rfl

theorem kc_expire_push : ((c.expire old).push k cmd ttl now).kc k' =
    (c.push k cmd ttl now).kc k' := by
  cases old <;> rfl

theorem entry_expire_push : ((c.expire old).push k cmd ttl now).entry id =
    (c.push k cmd ttl now).entry id := by
  cases old <;> rfl

theorem entries_expire : (c.expire old).entries = c.entries := by
  cases old <;> rfl

theorem isSome_list_expire : (c.expire old).list.isSome = c.list.isSome := by
  cases old with
  | none => rfl
  | some id => exact isSome_map

theorem Linked.fresh (h : Linked c) (hid : id ∈ c.order) : id ≠ c.entries.next := by
  obtain ⟨key, cmd, hplace⟩ := (h.mem id).mp hid
  have := h.lt_next hplace
  omega

theorem Linked.mem_expire (h : Linked c) :
    id ∈ (c.expire old).order ↔ some id ≠ old ∧ id ∈ c.order := by
  rw [order_expire]
  cases old with
  | none => simp
  | some id' =>
    rw [elim_some, h.once.mem_erase_iff]
    simp

theorem order_expire_push (hopen : c.list.isSome) :
    ((c.expire old).push k cmd ttl now).order = (c.expire old).order ++ [c.entries.next] := by
  rw [order_push (by rw [isSome_list_expire]; exact hopen), entries_expire]

theorem Linked.back_push (h : Linked c) {key' cmd' : Bytes} {k' id' : Nat}
    (hk' : c.keyCache key' = some k')
    (hid' : ((c.push k cmd ttl now).kc k').cache.lookup cmd' = some id') :
    ((c.push k cmd ttl now).entry id').kc = k' ∧ ((c.push k cmd ttl now).entry id').cmd = cmd' ∧
      id' < c.entries.next + 1 := by
  rw [lookup_push] at hid'
  split at hid'
  next hnew =>
    cases hid'
    rw [entry_push_new]
    exact ⟨hnew.1, hnew.2.symm, by omega⟩
  · obtain ⟨h1, h2, h3⟩ := h.back _ _ _ _ hk' hid'
    rw [entry_push_ne (h.fresh (h.mem_order (elem_eq_some.mpr ⟨k', hk', hid'⟩)))]
    exact ⟨h1, h2, by omega⟩

theorem Linked.mem_push (h : Linked c) (hk : c.keyCache key = some k) (hopen : c.list.isSome)
    (hplace : c.elem key cmd = old) (id : Nat) :
    id ∈ ((c.expire old).push k cmd ttl now).order ↔
      ∃ key' cmd', ((c.expire old).push k cmd ttl now).elem key' cmd' = some id := by
  rw [order_expire_push hopen, mem_append, h.mem_expire, mem_singleton]
  simp only [elem_expire_push, elem_push h hk]
  constructor
  · rintro (⟨hne, hid⟩ | rfl)
    · obtain ⟨key', cmd', hplace'⟩ := (h.mem id).mp hid
      refine ⟨key', cmd', ?_⟩
      rw [if_neg _, hplace']
      rintro ⟨rfl, rfl⟩
      exact hne (hplace'.symm.trans hplace)
    · exact ⟨key, cmd, if_pos ⟨rfl, rfl⟩⟩
  · rintro ⟨key', cmd', hplace'⟩
    split at hplace'
    · exact .inr (some.inj hplace').symm
    next hother =>
      refine .inl ⟨?_, h.mem_order hplace'⟩
      rintro rfl
      exact hother (h.elem_inj hplace hplace')

theorem Linked.push (h : Linked c) (hk : c.keyCache key = some k)
    (hfilled : ∀ key' k', key' ≠ key → c.keyCache key' = some k' → (c.kc k').cache.entries ≠ [])
    (hopen : c.list.isSome) (hplace : c.elem key cmd = old) :
    Ok ((c.expire old).push k cmd ttl now) := by
  refine ⟨⟨?_, ?_, ?_, h.mem_push hk hopen hplace, ?_⟩, ?_⟩
  · intro key' k' hk'
    rw [keyCache_expire_push] at hk'
    obtain ⟨hname, hlt⟩ := h.key _ _ hk'
    exact ⟨by rw [kc_expire_push, key_push, hname], by cases old <;> exact hlt⟩
  · intro key' k' cmd' id' hk' hid'
    rw [keyCache_expire_push] at hk'
    rw [kc_expire_push] at hid'
    have hnext : ((c.expire old).push k cmd ttl now).entries.next = c.entries.next + 1 := by
      cases old <;> rfl
    rw [hnext, entry_expire_push]
    exact h.back_push hk' hid'
  · rw [order_expire_push hopen, nodup_append]
    refine ⟨?_, nodup_singleton _, ?_⟩
    · rw [order_expire]
      cases old with
      | none => exact h.once
      | some id => exact h.once.erase _
    · intro id hid id' hid'
      rw [mem_singleton] at hid'
      rw [hid']
      exact h.fresh (h.mem_expire.mp hid).2
  · have hlist : ((c.expire old).push k cmd ttl now).list.isSome = (c.expire old).list.isSome :=
      isSome_map
    have hstore : ((c.expire old).push k cmd ttl now).store = c.store := by cases old <;> rfl
    rw [hlist, isSome_list_expire, hstore, h.opened]
  · intro key' k' hk'
    rw [keyCache_expire_push] at hk'
    rw [kc_expire_push]
    by_cases hkk : k = k'
    · subst hkk
      rw [kc_push_self]
      intro hempty
      cases (lookup_insert _).symm.trans ((entries_eq_nil_iff _).mp hempty cmd)
    · rw [kc_push_ne hkk]
      apply hfilled key' k' _ hk'
      rintro rfl
      exact hkk (some.inj (hk.symm.trans hk'))

end Push

end Lru

end Rueidis
