import Rueidis.Cache.LruSystem

/-!
# Flights of the cache

The cache keeps to the contract: at most one request is out for a key and a command, and the callers
that wait for it are released once, by the operation that settles it.
-/

namespace Rueidis

open Lru History List CacheEvent Machine

theorem elem_of_closed {c : Lru} (hs : c.store = none) (key cmd : Bytes) : c.elem key cmd = none := by
  unfold Lru.elem Lru.keyCache
  rw [hs]
  rfl

def Lru.InFlight (c : Lru) (key cmd : Bytes) (id : Nat) : Prop :=
  c.elem key cmd = some id ∧ (c.entry id).pending

def LruSystem.book (s : LruSystem) : FlightBook where
  closed := s.lru.store = none
  next := s.lru.entries.next
  pending := s.lru.InFlight
  wait id := (s.lru.entry id).wait
  settled := s.closing ++ s.closed
  log := s.log

def NoErrors (c : Lru) : Prop := ∀ key cmd id, c.InFlight key cmd id → (c.entry id).err = none

structure LruBooked (s : LruSystem) : Prop where
  sound : s.book.Sound
  noErrors : NoErrors s.lru

namespace LruBooked

open FlightBook

variable {s s' : LruSystem} {c : Lru} {key cmd : Bytes} {id : Nat} {e : CacheEvent} {err : Err}

theorem same_shrunk (hc : Shrunk s.lru c) (log : List CacheEvent) :
    Same s.book (LruSystem.book ⟨c, s.closing, s.closed, log⟩) where
  closed := eq_none_of_isSome_eq hc.store
  next := congrArg Heap.next hc.entries
  pending key cmd id := by
    show c.elem key cmd = some id ∧ (c.entry id).pending ↔ _
    rw [hc.entry]
    exact ⟨fun hp => ⟨hc.sub _ _ _ hp.1, hp.2⟩, fun hp => ⟨hc.keep _ _ _ hp.1 hp.2, hp.2⟩⟩
  wait id _ := congrArg CacheEntry.wait (hc.entry id)
  settled := .refl _

theorem noErrors_shrunk (h : NoErrors s.lru) (hc : Shrunk s.lru c) : NoErrors c := by
  intro key cmd id hp
  unfold InFlight at hp
  rw [hc.entry] at hp ⊢
  exact h key cmd id ⟨hc.sub _ _ _ hp.1, hp.2⟩

variable (h : LruBooked s)

include h

theorem snoc (hc : Shrunk s.lru c) (hsettled : e.settled = [])
    (hmiss : ∀ key cmd ttl now, e ≠ .missed key cmd ttl now)
    (hwaits : ∀ key cmd id, e = .waits key cmd id → s.lru.InFlight key cmd id)
    (hends : ∀ key cmd id, e.Ends key cmd → ¬ s.lru.InFlight key cmd id) :
    LruBooked ⟨c, s.closing, s.closed, s.log ++ [e]⟩ where
  sound := by
    refine h.sound.step (.event e (same_shrunk hc _) rfl hsettled ?_ hwaits hends)
    exact fun key cmd hm => absurd hm (not_misses hmiss)
  noErrors := noErrors_shrunk h.noErrors hc

theorem opened {ttl now : Int} {k : Nat} (hok : Ok s.lru)
    (hdead : ∀ id, s.lru.elem key cmd = some id → ¬ Live (s.lru.entry id).val now)
    (hs : c.store.isSome) (hentries : c.entries = s.lru.entries.alloc (pendingEntry k cmd ttl now))
    (helem : ∀ key' cmd', c.elem key' cmd' =
      if key' = key ∧ cmd' = cmd then some s.lru.entries.next else s.lru.elem key' cmd') :
    LruBooked ⟨c, s.closing, s.closed, s.log ++ [.missed key cmd ttl now]⟩ := by
  have hnew : c.entry s.lru.entries.next = pendingEntry k cmd ttl now := by
    rw [entry, hentries, Heap.get_alloc_self]
  have hold : ∀ id < s.lru.entries.next, c.entry id = s.lru.entry id := by
    intro id hid
    rw [entry, hentries]
    exact Heap.get_alloc_ne _ _ (Nat.ne_of_lt hid)
  have hnone : ∀ id, ¬ s.lru.InFlight key cmd id := fun id hp => hdead id hp.1 (.inl hp.2)
  have hpending : ∀ key' cmd' id, c.InFlight key' cmd' id ↔
      s.lru.InFlight key' cmd' id ∨ key' = key ∧ cmd' = cmd ∧ id = s.lru.entries.next := by
    intro key' cmd' id
    unfold InFlight
    rw [helem]
    by_cases hsame : key' = key ∧ cmd' = cmd
    · rw [if_pos hsame]
      obtain ⟨rfl, rfl⟩ := hsame
      constructor
      · rintro ⟨hid, -⟩
        cases hid
        exact .inr ⟨rfl, rfl, rfl⟩
      · rintro (hp | ⟨-, -, rfl⟩)
        · exact absurd hp (hnone id)
        · rw [hnew]
          exact ⟨rfl, rfl⟩
    · rw [if_neg hsame]
      refine ⟨fun hp => .inl (hold id (hok.lt_next hp.1) ▸ hp), ?_⟩
      rintro (hp | ⟨rfl, rfl, -⟩)
      · rwa [hold id (hok.lt_next hp.1)]
      · exact absurd ⟨rfl, rfl⟩ hsame
  constructor
  · refine h.sound.step (.opened key cmd ttl now hnone ?_ ?_ hpending ?_ rfl rfl)
    · intro hs'
      rw [show c.store = none from hs'] at hs
      cases hs
    · exact congrArg Heap.next hentries
    · exact fun id hid => congrArg CacheEntry.wait (hold id (h.sound.gone id hid).1)
  · intro key' cmd' id hp
    rcases (hpending key' cmd' id).mp hp with hp | ⟨-, -, rfl⟩
    · rw [hold id (hok.lt_next hp.1)]
      exact h.noErrors key' cmd' id hp
    · rw [hnew]
      rfl

theorem settle_one (hp : s.lru.InFlight key cmd id) (hs : c.store = none → s.lru.store = none)
    (hnext : c.entries.next = s.lru.entries.next)
    (hentry : ∀ id' ≠ id, c.entry id' = s.lru.entry id')
    (hsub : ∀ key' cmd' id', id' ≠ id → (c.elem key' cmd' = some id' ↔ s.lru.elem key' cmd' = some id'))
    (hout : ∀ key' cmd', ¬ c.InFlight key' cmd' id) (hevent : e.settled = [id])
    (hends : ∀ key' cmd', e.Ends key' cmd' → key' = key ∧ cmd' = cmd)
    (hreleases : e.Releases key cmd id (c.entry id).wait)
    (hmiss : ∀ key cmd ttl now, e ≠ .missed key cmd ttl now)
    (hwaits : ∀ key cmd id, e ≠ .waits key cmd id) :
    LruBooked ⟨c, id :: s.closing, s.closed, s.log ++ [e]⟩ := by
  have hpending : ∀ key' cmd' id', c.InFlight key' cmd' id' ↔
      s.lru.InFlight key' cmd' id' ∧ id' ∉ [id] := by
    intro key' cmd' id'
    rw [mem_singleton]
    by_cases hii : id' = id
    · subst hii
      exact ⟨fun hp' => absurd hp' (hout key' cmd'), fun hp' => absurd rfl hp'.2⟩
    · unfold InFlight
      rw [hsub key' cmd' id' hii, hentry id' hii]
      exact ⟨fun hp' => ⟨hp', hii⟩, fun hp' => hp'.1⟩
  constructor
  · refine h.sound.step (.settle [id] e (nodup_singleton id) ?_ (fun hs' => .inl (hs hs')) hnext
      hpending ?_ (.refl _) rfl hevent ?_ ?_ hmiss hwaits)
    · intro id' hid'
      cases mem_singleton.mp hid'
      exact ⟨key, cmd, hp⟩
    · refine fun id' hid' => congrArg CacheEntry.wait (hentry id' ?_)
      rintro rfl
      exact (h.sound.gone id' hid').2 key cmd hp
    · intro key' cmd' id' hid' hp'
      cases mem_singleton.mp hid'
      obtain ⟨rfl, rfl⟩ := h.sound.place _ _ _ _ _ hp hp'
      exact hreleases
    · intro key' cmd' id' hend hp'
      obtain ⟨rfl, rfl⟩ := hends key' cmd' hend
      cases hp.1.symm.trans hp'.1
      exact mem_cons_self
  · intro key' cmd' id' hp'
    obtain ⟨hold, hne⟩ := (hpending key' cmd' id').mp hp'
    rw [mem_singleton] at hne
    rw [hentry id' hne]
    exact h.noErrors key' cmd' id' hold

theorem stored {value : RedisMessage} (hplace : s.lru.elem key cmd = some id)
    (hp : (s.lru.entry id).pending) (hvalue : value.typ ≠ 0) :
    LruBooked ⟨s.lru.fill key cmd id (stamped (s.lru.entry id) value).2, id :: s.closing, s.closed,
      s.log ++ [.updated key cmd value (some id)]⟩ := by
  have hself : ((s.lru.fill key cmd id (stamped (s.lru.entry id) value).2).entry id).wait =
      ((stamped (s.lru.entry id) value).2, (s.lru.entry id).err) := by
    show ((s.lru.entries.set id _).get id).wait = _
    rw [Heap.get_set_self]
    rfl
  refine h.settle_one ⟨hplace, hp⟩ (fun hs => hs) rfl (fun id' hne => Heap.get_set_ne _ _ hne.symm)
    (fun _ _ _ _ => Iff.rfl) ?_ rfl (fun _ _ => ends_updated) ?_ nofun nofun
  · rintro key' cmd' ⟨-, hp'⟩
    have htyp : ((s.lru.fill key cmd id (stamped (s.lru.entry id) value).2).entry id).wait.1.typ =
        0 := hp'
    rw [hself, typ_stamped] at htyp
    exact hvalue htyp
  · refine .inl ⟨value, rfl, ?_⟩
    rw [hself]
    refine ⟨h.noErrors key cmd id ⟨hplace, hp⟩, ?_⟩
    unfold stamped
    dsimp only
    split
    · exact .inr ⟨_, rfl⟩
    · exact .inl rfl

theorem removed (hok : Ok s.lru) (hplace : s.lru.elem key cmd = some id)
    (hp : (s.lru.entry id).pending)
    (hentries : c.entries = s.lru.entries.set id { s.lru.entry id with err := some err })
    (hs : c.store.isSome = s.lru.store.isSome)
    (helem : ∀ key' cmd', c.elem key' cmd' =
      if key' = key ∧ cmd' = cmd then none else s.lru.elem key' cmd') :
    LruBooked ⟨c, id :: s.closing, s.closed, s.log ++ [.cancelled key cmd err (some id)]⟩ := by
  refine h.settle_one ⟨hplace, hp⟩ (eq_none_of_isSome_eq hs) (by rw [hentries]; rfl) ?_ ?_ ?_ rfl
    (fun _ _ => ends_cancelled) ?_ nofun nofun
  · intro id' hne
    rw [entry, hentries]
    exact Heap.get_set_ne _ _ hne.symm
  · intro key' cmd' id' hne
    rw [helem]
    by_cases hsame : key' = key ∧ cmd' = cmd
    · rw [if_pos hsame]
      obtain ⟨rfl, rfl⟩ := hsame
      exact ⟨nofun, fun hplace' => absurd (Option.some.inj (hplace'.symm.trans hplace)) hne⟩
    · rw [if_neg hsame]
  · rintro key' cmd' ⟨hplace', -⟩
    rw [helem] at hplace'
    split at hplace'
    · cases hplace'
    next hne =>
      obtain ⟨rfl, rfl⟩ := hok.elem_inj hplace hplace'
      exact hne ⟨rfl, rfl⟩
  · refine .inr (.inl ⟨err, rfl, ?_⟩)
    rw [entry, hentries, Heap.get_set_self]
    rfl

theorem closed {chs : List Nat} (hs : c.store = none) (hnext : c.entries.next = s.lru.entries.next)
    (honce : chs.Nodup)
    (hchs : ∀ id, id ∈ chs ↔ (s.lru.entry id).pending ∧ ∃ key cmd, s.lru.elem key cmd = some id)
    (hentry : ∀ id, c.entry id =
      if id ∈ chs then { s.lru.entry id with err := some err } else s.lru.entry id) :
    LruBooked ⟨c, s.closing, chs ++ s.closed, s.log ++ [.closed err chs]⟩ := by
  have hnone : ∀ key cmd id, ¬ c.InFlight key cmd id := by
    rintro key cmd id ⟨hplace, -⟩
    cases (elem_of_closed hs key cmd).symm.trans hplace
  have hall : ∀ key cmd id, s.lru.InFlight key cmd id → id ∈ chs :=
    fun key cmd id hp => (hchs id).mpr ⟨hp.2, key, cmd, hp.1⟩
  constructor
  · refine h.sound.step (.settle chs (.closed err chs) honce ?_ (fun _ => .inr ⟨err, chs, rfl⟩)
      hnext ?_ ?_ ?_ rfl rfl ?_ (fun key cmd id _ => hall key cmd id) nofun nofun)
    · intro id hid
      obtain ⟨hp, key, cmd, hplace⟩ := (hchs id).mp hid
      exact ⟨key, cmd, hplace, hp⟩
    · intro key cmd id
      exact ⟨fun hp => absurd hp (hnone key cmd id), fun hp => absurd (hall key cmd id hp.1) hp.2⟩
    · intro id hid
      show (c.entry id).wait = _
      rw [hentry, if_neg]
      · rfl
      · intro hmem
        obtain ⟨hp, key, cmd, hplace⟩ := (hchs id).mp hmem
        exact (h.sound.gone id hid).2 key cmd ⟨hplace, hp⟩
    · exact perm_append_comm_assoc s.closing chs s.closed
    · intro key cmd id hid _
      refine .inr (.inr ⟨err, chs, rfl, hid, ?_⟩)
      show (c.entry id).err = some err
      rw [hentry, if_pos hid]
  · exact fun key cmd id hp => absurd hp (hnone key cmd id)

theorem released (hid : id ∈ s.closing) :
    LruBooked ⟨s.lru, s.closing.erase id, id :: s.closed, s.log⟩ := by
  refine ⟨h.sound.step (.quiet ⟨fun hs => hs, rfl, fun _ _ _ => Iff.rfl, fun _ _ => rfl, ?_⟩ rfl),
    h.noErrors⟩
  exact perm_middle.trans ((perm_cons_erase hid).symm.append_right s.closed)

theorem moved (hok : Ok s.lru) (hm : LruMoved (fun value => value.typ ≠ 0) s s') :
    LruBooked s' := by
  have hrefl := (Touched.refl s.lru).shrunk
  cases hm with
  | quiet c _ hc =>
    exact ⟨h.sound.step (.quiet (same_shrunk hc _) rfl), noErrors_shrunk h.noErrors hc⟩
  | waits key cmd id hplace hp =>
    exact h.snoc hrefl rfl nofun (fun _ _ _ heq => by cases heq; exact ⟨hplace, hp⟩)
      fun _ _ _ hend => absurd hend (not_ends nofun nofun nofun)
  | hit key cmd now id hplace hvalue hlive =>
    exact h.snoc hrefl rfl nofun nofun
      fun _ _ _ hend => absurd hend (not_ends nofun nofun nofun)
  | missed key cmd ttl now hs =>
    refine ⟨h.sound.step (.event (.missed key cmd ttl now) (same_shrunk hrefl _) rfl rfl
      (fun _ _ _ => hs) nofun ?_), h.noErrors⟩
    exact fun _ _ _ hend => absurd hend (not_ends nofun nofun nofun)
  | opened key cmd ttl now c k hdead _ hs hentries helem =>
    exact h.opened hok hdead hs hentries helem
  | updated key cmd value hnone =>
    refine h.snoc hrefl rfl nofun nofun ?_
    intro key' cmd' id hend hp
    obtain ⟨rfl, rfl⟩ := ends_updated hend
    exact hnone id hp.1 hp.2
  | stored key cmd value id hplace hp hvalue => exact h.stored hplace hp hvalue
  | cancelled key cmd err hnone =>
    refine h.snoc hrefl rfl nofun nofun ?_
    intro key' cmd' id hend hp
    obtain ⟨rfl, rfl⟩ := ends_cancelled hend
    exact hnone id hp.1 hp.2
  | removed key cmd err c id hplace hp _ hentries hs helem =>
    exact h.removed hok hplace hp hentries hs helem
  | deleted keys c _ hc hgone =>
    exact h.snoc hc rfl nofun nofun
      fun _ _ _ hend => absurd hend (not_ends nofun nofun nofun)
  | closed err c chs hs _ hnext honce hchs hentry => exact h.closed hs hnext honce hchs hentry
  | released id hid => exact h.released hid

end LruBooked

/-! ## Runs -/

theorem lruBooked_new (max : Int) : LruBooked (newLruSystem max) where
  sound := FlightBook.sound_new nofun
    (fun _ _ id hp => nomatch (show (none : Option Nat) = some id from hp.1)) rfl rfl
  noErrors _ _ id hp := nomatch (show (none : Option Nat) = some id from hp.1)

/-- The contract in every run in which `Update` is called with replies.  An entry that was handed
out is pending in its place until the first `Update` or `Cancel` of the key and the command or
`Close`, which closes its channel and gives it the value or the error. -/
theorem lru_flights (max : Int) (acts : List LruAct)
    (hacts : ∀ a ∈ acts, a.Gives fun value => value.typ ≠ 0) (s : LruSystem)
    (h : run lruStep (newLruSystem max) acts = some s) :
    (∀ key cmd, Separated (CacheEvent.Misses key cmd) (CacheEvent.Settles key cmd) CacheEvent.Closes
      s.log) ∧
    (s.closing ++ s.closed).Nodup ∧
    (s.closing ++ s.closed).Perm (s.log.flatMap settled) ∧
    ∀ before after key cmd id, s.log = before ++ .waits key cmd id :: after →
      (s.lru.elem key cmd = some id ∧ (s.lru.entry id).pending ∧ id ∉ s.closing ++ s.closed ∧
        ∀ e ∈ after, ¬ e.Ends key cmd) ∨
      ∃ first e later, after = first ++ e :: later ∧ (∀ x ∈ first, ¬ x.Ends key cmd) ∧
        id ∈ s.closing ++ s.closed ∧ e.Releases key cmd id (s.lru.entry id).wait := by
  have hbooked : LruBooked s :=
    lruRun_invariant (lruBooked_new max) (fun _ _ hok hs hm => hs.moved hok hm) hacts h
  refine ⟨hbooked.sound.apart, hbooked.sound.once, hbooked.sound.record, ?_⟩
  exact fun before after key cmd id hlog =>
    (hbooked.sound.waiting before after key cmd id hlog).imp_left fun ⟨hp, hnot⟩ =>
      ⟨hp.1, hp.2, fun hid => (hbooked.sound.gone id hid).2 key cmd hp, hnot⟩

theorem lru_flights_twice :
    let acts : List LruAct := [.opens 5000000 [([107], [71], 1000000), ([107], [71], 1000000)]
      [.missed, .missed], .update [107] [71] { typ := 43, bytes := some [118] }, .closeCh 0]
    (∀ a ∈ acts, a.Gives fun value => value.typ ≠ 0) ∧
      ∃ s before after, run lruStep (newLruSystem 1000) acts = some s ∧
        s.log = before ++ .waits [107] [71] 0 :: after ∧ s.closed = [0] ∧
        ∃ e ∈ after, e.Releases [107] [71] 0 (s.lru.entry 0).wait := by
  intro acts
  have hacts : ∀ a ∈ acts, a.Gives fun value => value.typ ≠ 0 := by
    intro a ha
    simp only [acts, mem_cons, not_mem_nil, or_false] at ha
    rcases ha with rfl | rfl | rfl
    exacts [trivial, (by decide : (43 : UInt8) ≠ 0), trivial]
  have hlog : (run lruStep (newLruSystem 1000) acts).map LruSystem.log =
      some ([.missed [107] [71] 1000000 5000000] ++ .waits [107] [71] 0 ::
        [.updated [107] [71] { typ := 43, bytes := some [118] } (some 0)]) := rfl
  have hclosed : (run lruStep (newLruSystem 1000) acts).map LruSystem.closed =
      some [0] := rfl
  obtain ⟨s, hrun, hlog⟩ := Option.map_eq_some_iff.mp hlog
  rw [hrun] at hclosed
  have hclosed := Option.some.inj hclosed
  obtain ⟨-, -, -, hwaits⟩ := lru_flights 1000 acts hacts s hrun
  refine ⟨hacts, s, _, _, hrun, hlog, hclosed, ?_⟩
  rcases hwaits _ _ [107] [71] 0 hlog with ⟨-, -, hnot, -⟩ | ⟨first, e, later, heq, -, -, hreleases⟩
  · rw [hclosed] at hnot
    exact absurd (mem_append_right _ mem_cons_self) hnot
  · rw [heq]
    exact ⟨e, mem_append_right _ mem_cons_self, hreleases⟩

end Rueidis
