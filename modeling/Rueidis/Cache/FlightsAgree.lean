import Rueidis.Cache.LruSystem

/-!
# A batch of flights is one flight after the other

`Flights` looks all commands up first and opens what it missed in a second pass, which finds the
entries of the first commands of the batch in the store already.  `Flight` for one command at a time
gives the same outcomes, and a store that differs in the order of use and in the counters of hits only.
-/

namespace Rueidis

open Heap

namespace Lru

variable {c c' d : Lru} {key cmd : Bytes} {k id : Nat} {ttl now : Int} {c₀ : Lru}

def flightOut (r : Lru × RedisMessage × Option Nat) : FlightsOut :=
  r.2.2.elim .missed fun id => .ofValue id r.2.1

/-- `Flight` for the commands of a batch, one after the other. -/
def flightEach (now : Int) : Lru → List (Bytes × Bytes × Int) → Lru × List FlightsOut
  | c, [] => (c, [])
  | c, (key, cmd, ttl) :: multi =>
    let r := c.flight key cmd ttl now
    let (c', outs) := flightEach now r.1 multi
    (c', flightOut r :: outs)

/-! ## Stores that differ in the order of use and in the hits -/

namespace Touched

variable (h : Touched c c')

include h

theorem symm : Touched c' c where
  entries := h.entries.symm
  store := h.store.symm
  next := h.next.symm
  cache k := (h.cache k).symm
  name k := (h.name k).symm
  list := h.list.symm
  order := h.order.symm
  size := h.size.symm
  max := h.max.symm

-- the key cache is made under the same number
theorem ensureKey (key : Bytes) :
    (c'.ensureKey key).2 = (c.ensureKey key).2 ∧
      Touched (c.ensureKey key).1 (c'.ensureKey key).1 := by
  unfold Lru.ensureKey
  rw [h.keyCache]
  cases c.keyCache key with
  | some k => exact ⟨rfl, h⟩
  | none =>
    have hkc : ∀ k, ((c'.kcs.alloc { key := key }).get k).cache =
          ((c.kcs.alloc { key := key }).get k).cache ∧
        ((c'.kcs.alloc { key := key }).get k).key =
          ((c.kcs.alloc { key := key }).get k).key := by
      intro k
      by_cases hk : k = c.kcs.next
      · rw [hk, get_alloc_self, ← h.next, get_alloc_self]
        exact ⟨rfl, rfl⟩
      · rw [get_alloc_ne _ _ hk, get_alloc_ne _ _ (by rw [h.next]; exact hk)]
        exact ⟨h.cache k, h.name k⟩
    refine ⟨h.next, h.entries, ?_, ?_, fun k => (hkc k).1, fun k => (hkc k).2, h.list, h.order,
      h.size, h.max⟩
    · rw [h.store, h.next]
    · show c'.kcs.next + 1 = c.kcs.next + 1
      rw [h.next]

theorem expire (old : Option Nat) : Touched (c.expire old) (c'.expire old) := by
  cases old with
  | none => exact h
  | some id =>
    refine ⟨h.entries, h.store, h.next, h.cache, h.name, ?_, ?_, ?_, h.max⟩
    · rw [isSome_list_expire, isSome_list_expire, h.list]
    · rw [order_expire, order_expire]
      exact h.order.erase id
    · show c'.size - (c'.entry id).size = c.size - (c.entry id).size
      rw [h.size, h.entry]

theorem push (k : Nat) (cmd : Bytes) (ttl now : Int) :
    Touched (c.push k cmd ttl now) (c'.push k cmd ttl now) := by
  have hlist : (c'.push k cmd ttl now).list.isSome = (c.push k cmd ttl now).list.isSome := by
    show (c'.list.map _).isSome = (c.list.map _).isSome
    rw [Option.isSome_map, Option.isSome_map, h.list]
  refine ⟨?_, h.store, h.next, ?_, ?_, hlist, ?_, h.size, h.max⟩
  · show c'.entries.alloc _ = c.entries.alloc _
    rw [h.entries]
  · intro k'
    by_cases hk : k = k'
    · subst hk
      rw [kc_push_self, kc_push_self, h.cache, h.entries]
    · rw [kc_push_ne hk, kc_push_ne hk, h.cache]
  · intro k'
    by_cases hk : k = k'
    · subst hk
      rw [kc_push_self, kc_push_self]
      exact h.name k
    · rw [kc_push_ne hk, kc_push_ne hk, h.name]
  · by_cases hopen : c.list.isSome
    · rw [order_push hopen, order_push (h.list.trans hopen), h.entries]
      exact h.order.append_right _
    · -- nothing is pushed to a list that is gone
      have hnone : c.list = none := by simpa using hopen
      have hnone' : c'.list = none := by
        have := h.list
        rw [hnone] at this
        simpa using this
      show ((c'.list.map _).getD []).Perm ((c.list.map _).getD [])
      rw [hnone, hnone']
      exact .refl _

theorem openFlight (key cmd : Bytes) (ttl now : Int) :
    (c'.openFlight key cmd ttl now).2 = (c.openFlight key cmd ttl now).2 ∧
      Touched (c.openFlight key cmd ttl now).1 (c'.openFlight key cmd ttl now).1 := by
  unfold Lru.openFlight
  rw [h.store]
  split
  · exact ⟨rfl, h⟩
  · obtain ⟨hk, hkey⟩ := h.ensureKey key
    generalize c.ensureKey key = p at hk hkey
    generalize c'.ensureKey key = p' at hk hkey
    obtain ⟨c₁, k⟩ := p
    obtain ⟨c₂, k'⟩ := p'
    dsimp only at hk hkey ⊢
    subst hk
    rw [hkey.cache]
    cases (c₁.kc k').cache.lookup cmd with
    | none =>
      rw [hkey.entries]
      exact ⟨rfl, hkey.push ..⟩
    | some id =>
      dsimp only
      rw [hkey.entry]
      split
      · have hleft := (Touched.hit c₁ k').trans (Touched.moveToBack _ id)
        have hright := (Touched.hit c₂ k').trans (Touched.moveToBack _ id)
        exact ⟨rfl, (hleft.symm.trans hkey).trans hright⟩
      · have hpushed := (hkey.expire (some id)).push k' cmd ttl now
        refine ⟨?_, ?_⟩
        · rw [hkey.entries]
        · dsimp only [Lru.expire] at hpushed
          rw [hkey.entry] at hpushed
          exact hpushed

end Touched

/-! ## What a command finds -/

def Found (c : Lru) (now : Int) (key cmd : Bytes) (id : Nat) : Prop :=
  c.elem key cmd = some id ∧ Live (c.entry id).val now

theorem look_eq_none (h : c.look key cmd now = none) (id : Nat) : ¬ Found c now key cmd id := by
  rintro ⟨hplace, hlive⟩
  obtain ⟨k, hk, hid⟩ := elem_eq_some.mp hplace
  unfold look at h
  rw [hk] at h
  simp [hid, hlive] at h

def lookOut (c : Lru) (now : Int) (p : Bytes × Bytes × Int) : FlightsOut :=
  (c.look p.1 p.2.1 now).elim .missed fun r => .ofValue r.2.1 r.2.2

theorem lookOut_cases (c : Lru) (now : Int) (p : Bytes × Bytes × Int) :
    (∃ id, Found c now p.1 p.2.1 id ∧ c.lookOut now p = .ofValue id (c.entry id).val) ∨
      ((∀ id, ¬ Found c now p.1 p.2.1 id) ∧ c.lookOut now p = .missed) := by
  unfold lookOut
  cases hlook : c.look p.1 p.2.1 now with
  | none => exact .inr ⟨look_eq_none hlook, rfl⟩
  | some r =>
    obtain ⟨k, id, v⟩ := r
    obtain ⟨hplace, rfl, hlive⟩ := look_eq_some hlook
    exact .inl ⟨id, ⟨hplace, hlive⟩, rfl⟩

theorem Touched.lookOut (h : Touched c c') (now : Int) (p : Bytes × Bytes × Int) :
    c'.lookOut now p = c.lookOut now p := by
  unfold Lru.lookOut look
  rw [h.keyCache]
  simp only [h.cache, h.entry]

theorem lookAll_spec (now : Int) (c : Lru) (multi : List (Bytes × Bytes × Int)) :
    (lookAll now c multi).2.2 = multi.map (c.lookOut now) ∧ Touched c (lookAll now c multi).1 := by
  induction multi generalizing c with
  | nil => exact ⟨rfl, .refl c⟩
  | cons p multi ih =>
    obtain ⟨key, cmd, ttl⟩ := p
    unfold lookAll
    cases hlook : c.look key cmd now with
    | none =>
      have hout : c.lookOut now (key, cmd, ttl) = .missed := by
        unfold lookOut
        rw [hlook]
        rfl
      rw [List.map_cons, hout]
      exact ⟨congrArg _ (ih c).1, (ih c).2⟩
    | some r =>
      obtain ⟨k, id, v⟩ := r
      have hout : c.lookOut now (key, cmd, ttl) = .ofValue id v := by
        unfold lookOut
        rw [hlook]
        rfl
      have ht := Touched.hit c k
      obtain ⟨houts, hrest⟩ := ih (c.hit k)
      -- counting a hit changes no lookup
      have hsame : (c.hit k).lookOut now = c.lookOut now := funext (ht.lookOut now)
      rw [hsame] at houts
      rw [List.map_cons, hout]
      exact ⟨congrArg _ houts, ht.trans hrest⟩

theorem touched_moves (ids : List Nat) (c : Lru) : Touched c (ids.foldl moveToBack c) := by
  induction ids generalizing c with
  | nil => exact .refl c
  | cons id ids ih => exact (Touched.moveToBack c id).trans (ih _)

/-! ## One command -/

inductive Flown (c : Lru) (now : Int) (key cmd : Bytes) (ttl : Int) :
    Lru × RedisMessage × Option Nat → Prop where
  | found (c' : Lru) (id : Nat) (hfound : Found c now key cmd id) (ht : Touched c c') :
      Flown c now key cmd ttl (c', (c.entry id).val, some id)
  | opened (v : RedisMessage) (hmiss : ∀ id, ¬ Found c now key cmd id)
      (hopened : (c.openFlight key cmd ttl now).2 = .opened c.entries.next) :
      Flown c now key cmd ttl ((c.openFlight key cmd ttl now).1, v, none)

theorem openFlight_opened (h : Ok c) (hs : c.store.isSome) (hmiss : ∀ id, ¬ Found c now key cmd id)
    (ttl : Int) : (c.openFlight key cmd ttl now).2 = .opened c.entries.next := by
  have hcases := openFlight_cases h key cmd ttl now
  generalize c.openFlight key cmd ttl now = r at hcases
  cases hcases with
  | closed hnone =>
    rw [hnone] at hs
    cases hs
  | value c' id hplace hlive ht => exact absurd ⟨hplace, hlive⟩ (hmiss id)
  | opened => rfl

theorem openFlight_value (h : Ok c) (hfound : Found c now key cmd id) (ttl : Int) :
    (c.openFlight key cmd ttl now).2 = .value id (c.entry id).val ∧
      Touched c (c.openFlight key cmd ttl now).1 := by
  have hcases := openFlight_cases h key cmd ttl now
  generalize c.openFlight key cmd ttl now = r at hcases
  cases hcases with
  | closed hnone =>
    have hplace := hfound.1
    unfold elem keyCache at hplace
    rw [hnone] at hplace
    cases hplace
  | value c' id' hplace hlive ht =>
    rw [hfound.1] at hplace
    cases hplace
    exact ⟨rfl, ht⟩
  | opened c' k _ hdead => exact absurd hfound.2 (hdead id hfound.1)

theorem flight_flown (h : Ok c) (hs : c.store.isSome) (key cmd : Bytes) (ttl now : Int) :
    Flown c now key cmd ttl (c.flight key cmd ttl now) := by
  unfold flight
  cases hlook : c.look key cmd now with
  | some r =>
    obtain ⟨k, id, v⟩ := r
    obtain ⟨hplace, rfl, hlive⟩ := look_eq_some hlook
    have ht := Touched.hit c k
    dsimp only
    split
    · exact .found _ id ⟨hplace, hlive⟩ (ht.trans (.moveToBack _ id))
    · exact .found _ id ⟨hplace, hlive⟩ ht
  | none =>
    have hmiss := look_eq_none hlook
    have hopened := openFlight_opened h hs hmiss ttl
    have hflown := Flown.opened
      ((c.openFlight key cmd ttl now).1.entry c.entries.next).val hmiss hopened
    generalize c.openFlight key cmd ttl now = r at hopened hflown
    obtain ⟨c', looked⟩ := r
    subst hopened
    exact hflown

/-! ## The batch -/

def Kept (now : Int) (c c' : Lru) : Prop :=
  ∀ key cmd id, Found c now key cmd id → Found c' now key cmd id ∧ c'.entry id = c.entry id

theorem Kept.openFlight (hkept : Kept now c₀ c) (h : Ok c) (hmiss : ∀ id, ¬ Found c now key cmd id)
    (hopened : (c.openFlight key cmd ttl now).2 = .opened c.entries.next) :
    Kept now c₀ (c.openFlight key cmd ttl now).1 ∧ Ok (c.openFlight key cmd ttl now).1 ∧
      (c.openFlight key cmd ttl now).1.store.isSome ∧
      Found (c.openFlight key cmd ttl now).1 now key cmd c.entries.next ∧
      ∀ key' cmd' id, ¬ (key' = key ∧ cmd' = cmd) →
        Found (c.openFlight key cmd ttl now).1 now key' cmd' id → Found c now key' cmd' id := by
  have hcases := openFlight_cases h key cmd ttl now
  generalize c.openFlight key cmd ttl now = r at hcases hopened
  cases hcases with
  | closed => cases hopened
  | value => cases hopened
  | opened c' k hs hdead hok hs' hentries helem =>
    -- the entries that were there are older than the one that was made
    have hsame : ∀ {key' cmd' id}, c.elem key' cmd' = some id → c'.entry id = c.entry id := by
      intro key' cmd' id hid
      obtain ⟨k', hk', hid⟩ := elem_eq_some.mp hid
      have hlt : id < c.entries.next := (h.back _ _ _ _ hk' hid).2.2
      unfold entry
      rw [hentries]
      exact get_alloc_ne _ _ (by omega)
    refine ⟨?_, hok, hs', ⟨(helem key cmd).trans (if_pos ⟨rfl, rfl⟩), ?_⟩, ?_⟩
    · intro key' cmd' id hfound
      obtain ⟨hin, hentry⟩ := hkept _ _ _ hfound
      have hother : ¬ (key' = key ∧ cmd' = cmd) := by
        rintro ⟨rfl, rfl⟩
        exact hmiss id hin
      refine ⟨⟨(helem key' cmd').trans ((if_neg hother).trans hin.1), ?_⟩,
        (hsame hin.1).trans hentry⟩
      rw [hsame hin.1]
      exact hin.2
    · show Live (c'.entries.get _).val now
      rw [hentries, get_alloc_self]
      exact .inl rfl
    · rintro key' cmd' id hother ⟨hplace, hlive⟩
      rw [helem, if_neg hother] at hplace
      rw [hsame hplace] at hlive
      exact ⟨hplace, hlive⟩

/-- The second pass against one flight after the other.  `c₀` is the store of the first pass, `c`
the store of the single flights, and `d` the store of the batch. -/
theorem openAll_agrees (multi : List (Bytes × Bytes × Int)) (h : Ok c) (hs : c.store.isSome)
    (ht : Touched c d) (hkept : Kept now c₀ c) :
    (openAll now d multi (multi.map (c₀.lookOut now))).2 = (flightEach now c multi).2 ∧
      Touched (flightEach now c multi).1
        (openAll now d multi (multi.map (c₀.lookOut now))).1 := by
  induction multi generalizing c d with
  | nil => exact ⟨rfl, ht⟩
  | cons p multi ih =>
    obtain ⟨key, cmd, ttl⟩ := p
    have hflown := flight_flown h hs key cmd ttl now
    rw [List.map_cons]
    dsimp only [flightEach]
    generalize c.flight key cmd ttl now = r at hflown
    cases hflown with
    | found c' id hfound htouch =>
      have hkept' : Kept now c₀ c' := by
        intro key' cmd' id' hfound'
        obtain ⟨hin, hentry⟩ := hkept _ _ _ hfound'
        unfold Found
        rw [htouch.elem, htouch.entry]
        exact ⟨hin, hentry⟩
      have hs' : c'.store.isSome := by
        rw [htouch.store]
        exact hs
      have hrest := fun d' hd => ih (c := c') (d := d') (htouch.ok h) hs' hd hkept'
      rcases lookOut_cases c₀ now (key, cmd, ttl) with ⟨id₀, hfound₀, hout⟩ | ⟨hmiss₀, hout⟩
      · -- the first pass found it, and it is the same entry still
        obtain ⟨hin, hentry⟩ := hkept _ _ _ hfound₀
        have hid : some id = some id₀ := hfound.1.symm.trans hin.1
        cases hid
        obtain ⟨houts, hstores⟩ := hrest d (htouch.symm.trans ht)
        have hnot : FlightsOut.ofValue id (c₀.entry id).val ≠ .missed := by
          unfold FlightsOut.ofValue
          split <;> simp
        rw [hout, openAll.eq_2 _ _ _ _ _ _ (fun _ _ _ _ hm => hnot hm)]
        refine ⟨?_, hstores⟩
        dsimp only [flightOut]
        rw [houts, ← hentry]
        rfl
      · -- an earlier command of the batch opened it, and the second pass finds its entry
        have hfound' : Found d now key cmd id := by
          unfold Found
          rw [ht.elem, ht.entry]
          exact hfound
        obtain ⟨hvalue, hd⟩ := openFlight_value (ht.ok h) hfound' ttl
        obtain ⟨houts, hstores⟩ := hrest _ ((htouch.symm.trans ht).trans hd)
        rw [hout]
        dsimp only [openAll]
        rw [hvalue, ht.entry]
        refine ⟨?_, hstores⟩
        rw [houts]
        rfl
    | opened v hmiss hopened =>
      obtain ⟨hkept', hok', hs', -, -⟩ := hkept.openFlight h hmiss hopened
      obtain ⟨hlooked, hstore⟩ := ht.openFlight key cmd ttl now
      rw [hopened] at hlooked
      obtain ⟨houts, hstores⟩ := ih hok' hs' hstore hkept'
      -- what the first pass found would be found here
      have hout : c₀.lookOut now (key, cmd, ttl) = .missed := by
        rcases lookOut_cases c₀ now (key, cmd, ttl) with ⟨id₀, hfound₀, -⟩ | ⟨-, hout⟩
        · exact absurd (hkept _ _ _ hfound₀).1 (hmiss id₀)
        · exact hout
      rw [hout]
      dsimp only [openAll]
      rw [hlooked]
      refine ⟨?_, hstores⟩
      rw [houts]
      rfl

end Lru

open Lru Machine

variable {max : Int} {acts : List LruAct} {s : LruSystem}

theorem ok_of_lruRun (h : run lruStep (newLruSystem max) acts = some s) : Ok s.lru :=
  lruRun_invariant (P := fun _ => True) (ok_newLRU max)
    (fun _ _ hok _ hmoved => hmoved.ok hok) (fun a _ => by cases a <;> trivial) h

/-- For every store that can be reached and is open, every time and every batch: `Flights` gives the
outcomes of one `Flight` after the other, with the entries to wait for and the values, and leaves
the same entries under the same keys and commands. -/
theorem flights_eq_flightEach (hrun : run lruStep (newLruSystem max) acts = some s)
    (hopen : s.lru.store.isSome) (now : Int) (multi : List (Bytes × Bytes × Int)) :
    (s.lru.flights now multi).2 = (flightEach now s.lru multi).2 ∧
      Touched (flightEach now s.lru multi).1 (s.lru.flights now multi).1 := by
  obtain ⟨houts, htouch⟩ := lookAll_spec now s.lru multi
  have hmoved := htouch.trans (touched_moves (lookAll now s.lru multi).2.1 _)
  have hkept : Kept now s.lru s.lru := fun _ _ _ hfound => ⟨hfound, rfl⟩
  have hagree := openAll_agrees multi (ok_of_lruRun hrun) hopen hmoved hkept
  rw [← houts] at hagree
  exact hagree

theorem flights_eq_flightEach_repeated :
    let stored : RedisMessage := { typ := typeBlobString, bytes := some (lit "v") }
    let acts := [.opens 0 [(lit "a", lit "GET", 9000000)] [.missed],
      .update (lit "a") (lit "GET") stored]
    let multi := [(lit "a", lit "GET", 9000000), (lit "b", lit "GET", 9000000),
      (lit "b", lit "GET", 9000000)]
    ∃ s, run lruStep (newLruSystem 1000) acts = some s ∧
      (flightEach 0 s.lru multi).2 = [.result (stored.setExpireAt 9), .missed, .entry 1] ∧
      (s.lru.flights 0 multi).2 = (flightEach 0 s.lru multi).2 ∧
      Touched (flightEach 0 s.lru multi).1 (s.lru.flights 0 multi).1 := by
  intro stored acts multi
  have hrun : ∃ s, run lruStep (newLruSystem 1000) acts = some s ∧
      (s.lru.store.isSome ∧
        (flightEach 0 s.lru multi).2 = [.result (stored.setExpireAt 9), .missed, .entry 1]) :=
    exists_run lruStep _ _ (by decide +kernel)
  obtain ⟨s, hrun, hopen, houts⟩ := hrun
  exact ⟨s, hrun, houts, flights_eq_flightEach hrun hopen 0 multi⟩

end Rueidis
