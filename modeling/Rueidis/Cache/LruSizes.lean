import Rueidis.Cache.LruSteps
import Mathlib.Algebra.BigOperators.Group.List.Basic
import Mathlib.Algebra.Ring.Int.Defs

/-!
# The byte count of the cache

Pending entries take no room, the count is the sum of the sizes of the entries in the list, and
after every call it is within the limit.
-/

namespace Rueidis

open List Heap

namespace Lru

variable {c c' : Lru} {key cmd : Bytes} {k id : Nat} {ttl now : Int}

def sizeOf (c : Lru) (id : Nat) : Int := (c.entry id).size

structure Sized (c : Lru) : Prop where
  total : c.size = (c.order.map c.sizeOf).sum
  pending : ∀ id ∈ c.order, (c.entry id).pending → c.sizeOf id = 0
  nonneg : ∀ id ∈ c.order, 0 ≤ c.sizeOf id

theorem Touched.sized (h : Touched c c') (hc : Sized c) : Sized c' := by
  have hentry : ∀ id, c'.sizeOf id = c.sizeOf id := by
    intro id
    unfold sizeOf
    rw [h.entry]
  constructor
  · rw [h.size, hc.total, ← (h.order.map c.sizeOf).sum_eq]
    rw [funext hentry]
  · intro id hid
    rw [h.order.mem_iff] at hid
    rw [h.entry, hentry]
    exact hc.pending id hid
  · intro id hid
    rw [h.order.mem_iff] at hid
    rw [hentry]
    exact hc.nonneg id hid

theorem Sized.erase (hc : Sized c) (hnodup : c.order.Nodup) (hid : id ∈ c.order)
    (horder : c'.order = c.order.erase id) (hentry : ∀ id' ≠ id, c'.entry id' = c.entry id')
    (hsize : c'.size = c.size - c.sizeOf id) : Sized c' := by
  have hmem : ∀ id' ∈ c'.order, id' ≠ id ∧ id' ∈ c.order := by
    intro id' hid'
    rw [horder, hnodup.mem_erase_iff] at hid'
    exact hid'
  have hsizes : ∀ id' ∈ c'.order, c'.sizeOf id' = c.sizeOf id' := by
    intro id' hid'
    unfold sizeOf
    rw [hentry id' (hmem id' hid').1]
  constructor
  · rw [map_congr_left hsizes, horder, hsize, hc.total, ← sum_map_erase _ hid]
    omega
  · intro id' hid'
    rw [hsizes id' hid', hentry id' (hmem id' hid').1]
    exact hc.pending id' (hmem id' hid').2
  · intro id' hid'
    rw [hsizes id' hid']
    exact hc.nonneg id' (hmem id' hid').2

theorem Drops.sized (h : Drops c c') (hok : Ok c) (hc : Sized c) : Sized c' ∧ c'.size ≤ c.size := by
  induction h with
  | refl c => exact ⟨hc, Int.le_refl _⟩
  | @drop c c' key cmd k id hk hlook hvalue _ ih =>
    have hid := hok.mem_order (elem_eq_some.mpr ⟨k, hk, hlook⟩)
    have hsized : Sized (c.drop key k cmd id) :=
      hc.erase hok.once hid (order_drop c key cmd k id) (fun _ _ => rfl) rfl
    obtain ⟨hrest, hle⟩ := ih (hok.drop hk hlook) hsized
    have hnonneg := hc.nonneg id hid
    have hsize : (c.drop key k cmd id).size = c.size - c.sizeOf id := rfl
    exact ⟨hrest, by omega⟩

-- when the loop reaches the end of the list, only pending entries are left, which take no room
theorem evict_fits (ids : List Nat) (h : Ok c) (hc : Sized c) (hnodup : ids.Nodup)
    (hids : ∀ id ∈ ids, id ∈ c.order)
    (hall : ∀ id ∈ c.order, id ∈ ids ∨ (c.entry id).pending) (hmax : 0 ≤ c.max) :
    (c.evict ids).size ≤ (c.evict ids).max := by
  induction ids generalizing c with
  | nil =>
    have hzero : c.size = 0 := by
      rw [hc.total]
      apply sum_eq_zero
      intro x hx
      obtain ⟨id, hid, rfl⟩ := mem_map.mp hx
      exact hc.pending id hid ((hall id hid).resolve_left not_mem_nil)
    show c.size ≤ c.max
    omega
  | cons id ids ih =>
    rw [nodup_cons] at hnodup
    rw [forall_mem_cons] at hids
    unfold evict
    by_cases hfits : c.size ≤ c.max
    · rw [if_pos hfits]
      exact hfits
    · rw [if_neg hfits]
      by_cases hp : (c.entry id).pending
      · rw [if_pos hp]
        apply ih h hc hnodup.2 hids.2 _ hmax
        intro id' hid'
        rcases hall id' hid' with hmem | hpend
        · rcases mem_cons.mp hmem with rfl | hmem
          · exact .inr hp
          · exact .inl hmem
        · exact .inr hpend
      · rw [if_neg hp]
        obtain ⟨hk, hlook⟩ := h.place_of_mem hids.1
        have horder := order_drop c (c.kc (c.entry id).kc).key (c.entry id).cmd (c.entry id).kc id
        have hsized := hc.erase h.once hids.1 horder (fun _ _ => rfl) rfl
        apply ih (h.drop hk hlook) hsized hnodup.2 _ _ hmax
        · intro id' hid'
          rw [horder, h.once.mem_erase_iff]
          refine ⟨?_, hids.2 id' hid'⟩
          rintro rfl
          exact hnodup.1 hid'
        · intro id' hid'
          rw [horder, h.once.mem_erase_iff] at hid'
          rcases hall id' hid'.2 with hmem | hpend
          · exact .inl ((mem_cons.mp hmem).resolve_left hid'.1)
          · exact .inr hpend

theorem Sized.fill (hc : Sized c) (hok : Ok c) (hid : id ∈ c.order) (hp : (c.entry id).pending)
    {value : RedisMessage} (hvalue : value.typ ≠ 0) (key cmd : Bytes) :
    Sized (c.fill key cmd id value) := by
  have hself : ((c.fill key cmd id value).entry id).val = value := by
    show ((c.entries.set id _).get id).val = value
    rw [get_set_self]
  have hother : ∀ id' ≠ id, (c.fill key cmd id value).entry id' = c.entry id' := by
    intro id' hne
    exact get_set_ne _ _ hne.symm
  have hsize : (c.fill key cmd id value).size = c.size + (c.fill key cmd id value).sizeOf id := by
    show c.size + _ = c.size + ((c.entries.set id _).get id).size
    rw [get_set_self]
  constructor
  · have hrest : ∀ id' ∈ c.order.erase id, (c.fill key cmd id value).sizeOf id' = c.sizeOf id' := by
      intro id' hid'
      rw [hok.once.mem_erase_iff] at hid'
      unfold sizeOf
      rw [hother id' hid'.1]
    show _ = (c.order.map _).sum
    rw [hsize, hc.total, ← sum_map_erase (c.fill key cmd id value).sizeOf hid,
      ← sum_map_erase c.sizeOf hid, map_congr_left hrest, hc.pending id hid hp]
    omega
  · intro id' hid' hp'
    by_cases hii : id' = id
    · subst hii
      unfold CacheEntry.pending at hp'
      rw [hself] at hp'
      exact absurd hp' hvalue
    · unfold sizeOf
      rw [hother id' hii] at hp' ⊢
      exact hc.pending id' hid' hp'
  · intro id' hid'
    by_cases hii : id' = id
    · subst hii
      show 0 ≤ ((c.entries.set id' _).get id').size
      rw [get_set_self]
      exact Int.natCast_nonneg _
    · unfold sizeOf
      rw [hother id' hii]
      exact hc.nonneg id' hid'

theorem Sized.opened {old : Option Nat} (hc : Sized c) (hok : Ok c)
    (hold : ∀ id, old = some id → id ∈ c.order)
    (hentries : c'.entries = c.entries.alloc (pendingEntry k cmd ttl now))
    (hsize : c'.size = c.size - old.elim 0 c.sizeOf)
    (horder : c'.order = old.elim c.order c.order.erase ++ [c.entries.next]) : Sized c' := by
  have hrest : ∀ id ∈ old.elim c.order c.order.erase, c'.entry id = c.entry id ∧ id ∈ c.order := by
    intro id hid
    have hmem : id ∈ c.order := by
      cases old with
      | none => exact hid
      | some old => exact mem_of_mem_erase hid
    refine ⟨?_, hmem⟩
    unfold entry
    rw [hentries]
    exact get_alloc_ne _ _ (hok.fresh hmem)
  have hnew : c'.sizeOf c.entries.next = 0 := by
    unfold sizeOf entry
    rw [hentries, get_alloc_self]
    rfl
  have hsizes : ∀ id ∈ old.elim c.order c.order.erase, c'.sizeOf id = c.sizeOf id := by
    intro id hid
    unfold sizeOf
    rw [(hrest id hid).1]
  constructor
  · rw [horder, map_append, sum_append, map_congr_left hsizes, hsize, hc.total]
    show _ = _ + (c'.sizeOf c.entries.next + 0)
    rw [hnew]
    cases old with
    | none =>
      show _ - 0 = (c.order.map c.sizeOf).sum + (0 + 0)
      omega
    | some id =>
      show _ - c.sizeOf id = ((c.order.erase id).map c.sizeOf).sum + (0 + 0)
      rw [← sum_map_erase _ (hold id rfl)]
      omega
  · intro id hid hp
    rw [horder, mem_append, mem_singleton] at hid
    rcases hid with hid | rfl
    · rw [hsizes id hid]
      rw [(hrest id hid).1] at hp
      exact hc.pending id (hrest id hid).2 hp
    · exact hnew
  · intro id hid
    rw [horder, mem_append, mem_singleton] at hid
    rcases hid with hid | rfl
    · rw [hsizes id hid]
      exact hc.nonneg id (hrest id hid).2
    · exact Int.le_of_eq hnew.symm

/-! ## Whole calls -/

variable {max : Int}

structure Good (max : Int) (c : Lru) : Prop extends Ok c where
  sized : Sized c
  isOpen : c.store.isSome
  limit : c.max = max
  nonneg : 0 ≤ max
  fits : c.size ≤ max

theorem Touched.good (h : Touched c c') (hc : Good max c) : Good max c' where
  toOk := h.ok hc.toOk
  sized := h.sized hc.sized
  isOpen := by
    rw [h.store]
    exact hc.isOpen
  limit := by
    rw [h.max]
    exact hc.limit
  nonneg := hc.nonneg
  fits := by
    rw [h.size]
    exact hc.fits

theorem Drops.good (h : Drops c c') (hc : Good max c) : Good max c' := by
  have hs := h.shrunk hc.toOk
  have hsized := h.sized hc.toOk hc.sized
  refine ⟨h.ok hc.toOk, hsized.1, ?_, ?_, hc.nonneg, Int.le_trans hsized.2 hc.fits⟩
  · rw [hs.store]
    exact hc.isOpen
  · rw [hs.max]
    exact hc.limit

theorem ok_newLRU (max : Int) : Ok (newLRU max) := by
  have hkeys : ∀ key, (newLRU max).keyCache key = none := fun _ => rfl
  have helem : ∀ key cmd, (newLRU max).elem key cmd = none := fun _ _ => rfl
  refine ⟨⟨?_, ?_, nodup_nil, ?_, rfl⟩, ?_⟩
  · intro key k hk
    rw [hkeys] at hk
    cases hk
  · intro key k cmd id hk
    rw [hkeys] at hk
    cases hk
  · intro id
    simp only [helem]
    constructor
    · exact nofun
    · rintro ⟨key, cmd, h⟩
      cases h
  · intro key k hk
    rw [hkeys] at hk
    cases hk

theorem good_newLRU (hmax : 0 ≤ max) : Good max (newLRU max) :=
  ⟨ok_newLRU max, ⟨rfl, nofun, nofun⟩, rfl, rfl, hmax, hmax⟩

theorem Good.openFlight (h : Good max c) (key cmd : Bytes) (ttl now : Int) :
    Good max (c.openFlight key cmd ttl now).1 := by
  have hcases := openFlight_cases h.toOk key cmd ttl now
  generalize c.openFlight key cmd ttl now = r at hcases
  cases hcases with
  | closed hs => exact h
  | value c' id hplace hlive ht => exact ht.good h
  | opened c' k hs hdead hok hs' hentries helem hsize horder hmax =>
    have hplace : ∀ id, c.elem key cmd = some id → id ∈ c.order := fun id hid => h.mem_order hid
    have hsized := h.sized.opened h.toOk hplace hentries hsize horder
    refine ⟨hok, hsized, hs', hmax.trans h.limit, h.nonneg, ?_⟩
    · -- an expired value takes its room with it
      have hle : 0 ≤ (c.elem key cmd).elim 0 c.sizeOf := by
        cases hold : c.elem key cmd with
        | none => exact Int.le_refl 0
        | some id => exact h.sized.nonneg id (hplace id hold)
      have hfits := h.fits
      have hsize' : c'.size = c.size - (c.elem key cmd).elim 0 c.sizeOf := hsize
      show c'.size ≤ max
      omega

theorem flight_touched {r : Nat × Nat × RedisMessage} (h : c.look key cmd now = some r) :
    Touched c (c.flight key cmd ttl now).1 := by
  obtain ⟨k, id, v⟩ := r
  unfold flight
  rw [h]
  dsimp only
  split
  · exact (Touched.hit c k).trans (Touched.moveToBack _ id)
  · exact Touched.hit c k

theorem Good.flight (h : Good max c) (key cmd : Bytes) (ttl now : Int) :
    Good max (c.flight key cmd ttl now).1 := by
  cases hl : c.look key cmd now with
  | some r => exact (flight_touched hl).good h
  | none =>
    have hopen := h.openFlight key cmd ttl now
    unfold Lru.flight
    rw [hl]
    generalize c.openFlight key cmd ttl now = r at hopen
    obtain ⟨c', looked⟩ := r
    cases looked <;> exact hopen

theorem lookAll_touched (now : Int) (multi : List (Bytes × Bytes × Int)) (c : Lru) :
    Touched c (lookAll now c multi).1 := by
  induction multi generalizing c with
  | nil => exact .refl c
  | cons p multi ih =>
    obtain ⟨key, cmd, ttl⟩ := p
    unfold lookAll
    cases c.look key cmd now with
    | none => exact ih c
    | some r => exact (Touched.hit c r.1).trans (ih _)

theorem moves_touched (ids : List Nat) (c : Lru) : Touched c (ids.foldl Lru.moveToBack c) := by
  induction ids generalizing c with
  | nil => exact .refl c
  | cons id ids ih => exact (Touched.moveToBack c id).trans (ih _)

theorem Good.openAll (now : Int) (multi : List (Bytes × Bytes × Int)) (outs : List FlightsOut)
    (h : Good max c) : Good max (openAll now c multi outs).1 := by
  induction multi generalizing c outs with
  | nil =>
    exact h
  | cons p multi ih =>
    obtain ⟨key, cmd, ttl⟩ := p
    cases outs with
    | nil => exact h
    | cons out outs =>
      cases out with
      | entry id => exact ih outs h
      | result v => exact ih outs h
      | missed =>
        have hrest := ih outs (h.openFlight key cmd ttl now)
        unfold Lru.openAll
        generalize c.openFlight key cmd ttl now = r at hrest
        obtain ⟨c', looked⟩ := r
        cases looked <;> exact hrest

theorem Good.flights (h : Good max c) (now : Int) (multi : List (Bytes × Bytes × Int)) :
    Good max (c.flights now multi).1 :=
  Good.openAll now multi _ ((moves_touched _ _).good ((lookAll_touched now multi c).good h))

theorem typ_stamped (e : CacheEntry) (value : RedisMessage) :
    (stamped e value).2.typ = value.typ := by
  unfold stamped
  dsimp only
  split <;> rfl

theorem evict_good (h : Ok c) (hc : Sized c) (hs : c.store.isSome) (hmax : c.max = max)
    (hnonneg : 0 ≤ max) : Good max (c.evict (c.list.getD [])) := by
  have hdrops := evict_drops (c.list.getD []) h h.once fun _ hid => hid
  have hshrunk := hdrops.shrunk h
  have hfits := evict_fits (c.list.getD []) h hc h.once (fun _ hid => hid) (fun _ hid => .inl hid)
    (hmax.symm ▸ hnonneg)
  rw [hshrunk.max, hmax] at hfits
  refine ⟨hdrops.ok h, (hdrops.sized h hc).1, ?_, hshrunk.max.trans hmax, hnonneg, hfits⟩
  rw [hshrunk.store]
  exact hs

theorem Good.update (h : Good max c) (key cmd : Bytes) {value : RedisMessage} (hvalue : value.typ ≠ 0) :
    Good max (c.update key cmd value).1 := by
  unfold Lru.update
  cases hplace : c.elem key cmd with
  | none => exact h
  | some id =>
    dsimp only
    by_cases hp : (c.entry id).pending
    · rw [if_pos hp]
      have hstamped : (stamped (c.entry id) value).2.typ ≠ 0 := by
        rw [typ_stamped]
        exact hvalue
      have hsized := h.sized.fill h.toOk (h.mem_order hplace) hp hstamped key cmd
      exact evict_good (h.toOk.fill key cmd id _) hsized h.isOpen h.limit h.nonneg
    · rw [if_neg hp]
      exact evict_good h.toOk h.sized h.isOpen h.limit h.nonneg

theorem Good.cancel (h : Good max c) (key cmd : Bytes) (err : Err) :
    Good max (c.cancel key cmd err).1 := by
  have hcases := cancel_cases h.toOk key cmd err
  generalize c.cancel key cmd err = r at hcases
  cases hcases with
  | nothing hplace => exact h
  | removed c' id hplace hp hok hentries hs helem horder hsize hmax =>
    have hid := h.mem_order hplace
    have hother : ∀ id' ≠ id, c'.entry id' = c.entry id' := by
      intro id' hne
      unfold entry
      rw [hentries]
      exact get_set_ne _ _ hne.symm
    have hcount : c'.size = c.size - c.sizeOf id := by
      rw [h.sized.pending id hid hp, hsize]
      omega
    refine ⟨hok, h.sized.erase h.once hid horder hother hcount, ?_, hmax.trans h.limit, h.nonneg, ?_⟩
    · rw [hs]
      exact h.isOpen
    · rw [hsize]
      exact h.fits

inductive Call where
  | flight (key cmd : Bytes) (ttl now : Int)
  | flights (now : Int) (multi : List (Bytes × Bytes × Int))
  | update (key cmd : Bytes) (value : RedisMessage)
  | cancel (key cmd : Bytes) (err : Err)
  | delete (keys : Option (List RedisMessage))
  | getTTL (key cmd : Bytes) (now : Int)

def call (c : Lru) : Call → Lru
  | .flight key cmd ttl now => (c.flight key cmd ttl now).1
  | .flights now multi => (c.flights now multi).1
  | .update key cmd value => (c.update key cmd value).1
  | .cancel key cmd err => (c.cancel key cmd err).1
  | .delete keys => c.delete keys
  | .getTTL key cmd now => (c.getTTL key cmd now).1

def Call.Typed : Call → Prop
  | .update _ _ value => value.typ ≠ 0
  | _ => True

theorem Good.call (h : Good max c) (a : Call) (ha : a.Typed) : Good max (c.call a) := by
  cases a with
  | flight key cmd ttl now => exact h.flight key cmd ttl now
  | flights now multi => exact h.flights now multi
  | update key cmd value => exact h.update key cmd ha
  | cancel key cmd err => exact h.cancel key cmd err
  | delete keys => exact (delete_spec h.toOk keys).1.good h
  | getTTL key cmd now => exact h

theorem Good.calls (calls : List Call) (h : Good max c) (hcalls : ∀ a ∈ calls, a.Typed) :
    Good max (calls.foldl Lru.call c) := by
  induction calls generalizing c with
  | nil => exact h
  | cons a calls ih =>
    rw [forall_mem_cons] at hcalls
    exact ih (h.call a hcalls.1) hcalls.2

theorem Sized.values (h : Sized c) : c.size =
    ((c.order.filter fun id => ¬ (c.entry id).pending).map fun id => (c.entry id).size).sum := by
  have hsum : ∀ ids : List Nat, (∀ id ∈ ids, (c.entry id).pending → c.sizeOf id = 0) →
      (ids.map c.sizeOf).sum =
        ((ids.filter fun id => ¬ (c.entry id).pending).map c.sizeOf).sum := by
    intro ids hids
    induction ids with
    | nil => rfl
    | cons id ids ih =>
      rw [forall_mem_cons] at hids
      rw [map_cons, sum_cons, ih hids.2]
      by_cases hp : (c.entry id).pending
      · rw [filter_cons_of_neg (by simpa using hp), hids.1 hp, Int.zero_add]
      · rw [filter_cons_of_pos (by simpa using hp), map_cons, sum_cons]
  rw [h.total]
  exact hsum c.order h.pending

/-- After any calls on a new cache: the list has every entry of the store once, where the entry says
it is; no key is left without entries; the count is the sum of the sizes of the values; and it is
within the limit. -/
theorem calls_invariant (max : Int) (hmax : 0 ≤ max) (calls : List Call)
    (hcalls : ∀ a ∈ calls, a.Typed) :
    let c := calls.foldl Lru.call (newLRU max)
    (∃ list, c.list = some list ∧ list.Nodup ∧
      (∀ id, id ∈ list ↔ ∃ key k cmd, c.keyCache key = some k ∧
        (c.kc k).cache.lookup cmd = some id ∧ (c.kc k).key = key ∧
        (c.entry id).kc = k ∧ (c.entry id).cmd = cmd) ∧
      (∀ key k cmd id, c.keyCache key = some k → (c.kc k).cache.lookup cmd = some id →
        (c.kc k).key = key ∧ (c.entry id).kc = k ∧ (c.entry id).cmd = cmd ∧ id ∈ list) ∧
      (∀ key k, c.keyCache key = some k → (c.kc k).cache.entries ≠ []) ∧
      c.size = ((list.filter fun id => ¬ (c.entry id).pending).map
        fun id => (c.entry id).size).sum ∧
      ∀ id ∈ list, (c.entry id).pending → (c.entry id).size = 0) ∧
    c.max = max ∧ c.size ≤ c.max := by
  intro c
  have h : Good max c := (good_newLRU hmax).calls calls hcalls
  have hlist : c.list.isSome := h.opened.trans h.isOpen
  obtain ⟨list, hlist⟩ := Option.isSome_iff_exists.mp hlist
  have horder : c.order = list := by
    unfold order
    rw [hlist]
    rfl
  have hback : ∀ key k cmd id, c.keyCache key = some k → (c.kc k).cache.lookup cmd = some id →
      (c.kc k).key = key ∧ (c.entry id).kc = k ∧ (c.entry id).cmd = cmd ∧ id ∈ list := by
    intro key k cmd id hk hlook
    obtain ⟨hkc, hcmd, -⟩ := h.back _ _ _ _ hk hlook
    refine ⟨(h.key _ _ hk).1, hkc, hcmd, ?_⟩
    rw [← horder]
    exact h.mem_order (elem_eq_some.mpr ⟨k, hk, hlook⟩)
  refine ⟨⟨list, hlist, horder ▸ h.once, ?_, hback, h.noEmptyKey, horder ▸ h.sized.values,
    horder ▸ h.sized.pending⟩, h.limit, ?_⟩
  · intro id
    constructor
    · intro hid
      rw [← horder, h.mem] at hid
      obtain ⟨key, cmd, hplace⟩ := hid
      obtain ⟨k, hk, hlook⟩ := elem_eq_some.mp hplace
      obtain ⟨hkey, hkc, hcmd, -⟩ := hback _ _ _ _ hk hlook
      exact ⟨key, k, cmd, hk, hlook, hkey, hkc, hcmd⟩
    · rintro ⟨key, k, cmd, hk, hlook, -⟩
      exact (hback _ _ _ _ hk hlook).2.2.2
  · rw [h.limit]
    exact h.fits

/-- The request for `[107]` is answered, the one for `[108]` is under way. -/
def smallCalls : List Call :=
  [.flight [107] [71] 1000000 5000000, .flight [108] [71] 1000000 5000000,
    .update [107] [71] { typ := 43, bytes := some [118] }, .delete (some [{ bytes := some [109] }])]

def smallLRU : Lru := smallCalls.foldl Lru.call (newLRU 1000)

theorem calls_invariant_small :
    (∀ a ∈ smallCalls, a.Typed) ∧ smallLRU.list = some [0, 1] ∧ 0 < smallLRU.size ∧
      smallLRU.size = (smallLRU.entry 0).size ∧ (smallLRU.entry 1).pending ∧
      (smallLRU.entry 1).size = 0 ∧ smallLRU.size ≤ 1000 := by
  have hcalls : ∀ a ∈ smallCalls, a.Typed := by
    intro a ha
    simp only [smallCalls, mem_cons, not_mem_nil, or_false] at ha
    rcases ha with rfl | rfl | rfl | rfl
    · trivial
    · trivial
    · exact (by decide : (43 : UInt8) ≠ 0)
    · trivial
  have horder : smallLRU.list = some [0, 1] := by decide +kernel
  have hwaits : (smallLRU.entry 1).pending := by decide +kernel
  obtain ⟨⟨list, hlist, -, -, -, -, -, hpending⟩, hmax, hfits⟩ :=
    calls_invariant 1000 (by decide) smallCalls hcalls
  obtain rfl : list = [0, 1] := Option.some.inj (hlist.symm.trans horder)
  exact ⟨hcalls, horder, by decide +kernel, by decide +kernel, hwaits,
    hpending 1 (by decide) hwaits, hmax ▸ hfits⟩

end Lru

end Rueidis
