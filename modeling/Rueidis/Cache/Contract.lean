import Rueidis.Message
import Rueidis.Library.History
import Mathlib.Data.List.Perm.Basic

/-!
# The contract of a cache store

What `CacheStore` asks of its implementations, in terms of the calls and what they report: the lookups
of a key and a command are answered one request at a time, and those that wait for a request get what
the first operation that ends it gives.  `FlightBook.Step` is what a store may do.
-/

namespace Rueidis

open List

theorem eq_none_of_isSome_eq {α β : Type} {a : Option α} {b : Option β} (h : a.isSome = b.isSome)
    (ha : a = none) : b = none := by
  simpa [ha] using h.symm

open History

inductive CacheEvent where
  | missed (key cmd : Bytes) (ttl now : Int)
  /-- The pending entry `id` was handed out. -/
  | waits (key cmd : Bytes) (id : Nat)
  | hit (key cmd : Bytes) (now : Int) (v : RedisMessage)
  | updated (key cmd : Bytes) (value : RedisMessage) (ch : Option Nat)
  | cancelled (key cmd : Bytes) (err : Err) (ch : Option Nat)
  | deleted (keys : Option (List RedisMessage))
  | closed (err : Err) (chs : List Nat)

/-- The keys that `Delete` drops the values of; a nil slice is for all keys. -/
def Covers (keys : Option (List RedisMessage)) (key : Bytes) : Prop :=
  match keys with
  | none => True
  | some ks => ∃ k ∈ ks, k.string = key

namespace CacheEvent

variable {key cmd : Bytes} {id : Nat} {e : CacheEvent} {key' cmd' : Bytes} {ch : Option Nat}

def Misses (key cmd : Bytes) (e : CacheEvent) : Prop := ∃ ttl now, e = .missed key cmd ttl now

/-- An `Update` or a `Cancel` that found the entry pending. -/
def Settles (key cmd : Bytes) (e : CacheEvent) : Prop :=
  (∃ value id, e = .updated key cmd value (some id)) ∨
    ∃ err id, e = .cancelled key cmd err (some id)

def Closes (e : CacheEvent) : Prop := ∃ err chs, e = .closed err chs

/-- Any `Update` or `Cancel` of the key and the command, or `Close`. -/
def Ends (key cmd : Bytes) (e : CacheEvent) : Prop :=
  (∃ value ch, e = .updated key cmd value ch) ∨ (∃ err ch, e = .cancelled key cmd err ch) ∨ e.Closes

def settled : CacheEvent → List Nat
  | .updated _ _ _ ch => ch.toList
  | .cancelled _ _ _ ch => ch.toList
  | .closed _ chs => chs
  | _ => []

/-- The operation gives `w` to those that wait for the entry `id` of the key and the command. -/
def Releases (key cmd : Bytes) (id : Nat) (w : RedisMessage × Option Err) (e : CacheEvent) : Prop :=
  (∃ value, e = .updated key cmd value (some id) ∧ w.2 = none ∧
    (w.1 = value ∨ ∃ pxat, w.1 = value.setExpireAt pxat)) ∨
  (∃ err, e = .cancelled key cmd err (some id) ∧ w.2 = some err) ∨
  ∃ err chs, e = .closed err chs ∧ id ∈ chs ∧ w.2 = some err

def Overrides (key cmd : Bytes) (e : CacheEvent) : Prop :=
  (∃ value id, e = .updated key cmd value (some id)) ∨ ∃ keys, e = .deleted keys ∧ Covers keys key

theorem Closes.not_misses (h : e.Closes) : ¬ e.Misses key cmd := by
  obtain ⟨err, chs, rfl⟩ := h
  rintro ⟨ttl, now, ⟨⟩⟩

theorem Releases.settles {w : RedisMessage × Option Err} (h : e.Releases key cmd id w) :
    e.Settles key cmd ∨ e.Closes := by
  rcases h with ⟨value, rfl, -⟩ | ⟨err, rfl, -⟩ | ⟨err, chs, rfl, -⟩
  · exact .inl (.inl ⟨value, id, rfl⟩)
  · exact .inl (.inr ⟨err, id, rfl⟩)
  · exact .inr ⟨err, chs, rfl⟩

theorem not_misses (he : ∀ key cmd ttl now, e ≠ .missed key cmd ttl now) : ¬ e.Misses key cmd := by
  rintro ⟨ttl, now, heq⟩
  exact he key cmd ttl now heq

theorem not_ends (hupdate : ∀ key cmd value ch, e ≠ .updated key cmd value ch)
    (hcancel : ∀ key cmd err ch, e ≠ .cancelled key cmd err ch)
    (hclose : ∀ err chs, e ≠ .closed err chs) : ¬ e.Ends key cmd := by
  rintro (⟨value, ch, heq⟩ | ⟨err, ch, heq⟩ | ⟨err, chs, heq⟩)
  · exact hupdate key cmd value ch heq
  · exact hcancel key cmd err ch heq
  · exact hclose err chs heq

theorem ends_updated {value : RedisMessage}
    (h : (CacheEvent.updated key cmd value ch).Ends key' cmd') : key' = key ∧ cmd' = cmd := by
  rcases h with ⟨_, _, ⟨⟩⟩ | ⟨_, _, ⟨⟩⟩ | ⟨_, _, ⟨⟩⟩
  exact ⟨rfl, rfl⟩

theorem ends_cancelled {err : Err} (h : (CacheEvent.cancelled key cmd err ch).Ends key' cmd') :
    key' = key ∧ cmd' = cmd := by
  rcases h with ⟨_, _, ⟨⟩⟩ | ⟨_, _, ⟨⟩⟩ | ⟨_, _, ⟨⟩⟩
  exact ⟨rfl, rfl⟩

theorem not_overrides (hupdate : ∀ key cmd value id, e ≠ .updated key cmd value (some id))
    (hdelete : ∀ keys, e ≠ .deleted keys) : ¬ e.Overrides key cmd := by
  rintro (⟨value, id, heq⟩ | ⟨keys, heq, -⟩)
  · exact hupdate key cmd value id heq
  · exact hdelete keys heq

end CacheEvent

/-! ## Books -/

structure FlightBook where
  closed : Prop
  next : Nat
  pending : Bytes → Bytes → Nat → Prop
  wait : Nat → RedisMessage × Option Err
  settled : List Nat
  log : List CacheEvent

namespace FlightBook

variable {key cmd : Bytes}

def Released (b : FlightBook) (key cmd : Bytes) (id : Nat) (after : List CacheEvent) : Prop :=
  ∃ first e later, after = first ++ e :: later ∧ (∀ x ∈ first, ¬ x.Ends key cmd) ∧
    id ∈ b.settled ∧ e.Releases key cmd id (b.wait id)

structure Sound (b : FlightBook) : Prop where
  ended : b.closed → ∃ e ∈ b.log, e.Closes
  flying : ∀ key cmd, (∃ id, b.pending key cmd id) ∨
    AllAnswered (CacheEvent.Misses key cmd) (CacheEvent.Settles key cmd) CacheEvent.Closes b.log
  apart : ∀ key cmd,
    Separated (CacheEvent.Misses key cmd) (CacheEvent.Settles key cmd) CacheEvent.Closes b.log
  made : ∀ key cmd id, b.pending key cmd id → id < b.next
  place : ∀ key cmd key' cmd' id, b.pending key cmd id → b.pending key' cmd' id →
    key = key' ∧ cmd = cmd'
  once : b.settled.Nodup
  record : b.settled.Perm (b.log.flatMap CacheEvent.settled)
  gone : ∀ id ∈ b.settled, id < b.next ∧ ∀ key cmd, ¬ b.pending key cmd id
  waiting : ∀ before after key cmd id, b.log = before ++ .waits key cmd id :: after →
    (b.pending key cmd id ∧ ∀ e ∈ after, ¬ e.Ends key cmd) ∨ b.Released key cmd id after

structure Same (b b' : FlightBook) : Prop where
  closed : b'.closed → b.closed
  next : b'.next = b.next
  pending : ∀ key cmd id, b'.pending key cmd id ↔ b.pending key cmd id
  wait : ∀ id ∈ b.settled, b'.wait id = b.wait id
  settled : b'.settled.Perm b.settled

inductive Step (b b' : FlightBook) : Prop where
  | quiet (hsame : Same b b') (hlog : b'.log = b.log)
  /-- An event that settles nothing; a miss without a request is reported by a closed store only. -/
  | event (e : CacheEvent) (hsame : Same b b') (hlog : b'.log = b.log ++ [e])
      (hsettled : e.settled = []) (hmiss : ∀ key cmd, e.Misses key cmd → b.closed)
      (hwaits : ∀ key cmd id, e = .waits key cmd id → b.pending key cmd id)
      (hends : ∀ key cmd id, e.Ends key cmd → ¬ b.pending key cmd id)
  | opened (key cmd : Bytes) (ttl now : Int) (hnone : ∀ id, ¬ b.pending key cmd id)
      (hclosed : b'.closed → b.closed) (hnext : b'.next = b.next + 1)
      (hpending : ∀ key' cmd' id, b'.pending key' cmd' id ↔
        b.pending key' cmd' id ∨ key' = key ∧ cmd' = cmd ∧ id = b.next)
      (hwait : ∀ id ∈ b.settled, b'.wait id = b.wait id) (hsettled : b'.settled = b.settled)
      (hlog : b'.log = b.log ++ [.missed key cmd ttl now])
  /-- The operation `e` settles the entries `chs`. -/
  | settle (chs : List Nat) (e : CacheEvent) (honce : chs.Nodup)
      (hin : ∀ id ∈ chs, ∃ key cmd, b.pending key cmd id) (hclosed : b'.closed → b.closed ∨ e.Closes)
      (hnext : b'.next = b.next)
      (hpending : ∀ key cmd id, b'.pending key cmd id ↔ b.pending key cmd id ∧ id ∉ chs)
      (hwait : ∀ id ∈ b.settled, b'.wait id = b.wait id)
      (hsettled : b'.settled.Perm (chs ++ b.settled)) (hlog : b'.log = b.log ++ [e])
      (hevent : e.settled = chs)
      (hreleases : ∀ key cmd, ∀ id ∈ chs, b.pending key cmd id → e.Releases key cmd id (b'.wait id))
      (hends : ∀ key cmd id, e.Ends key cmd → b.pending key cmd id → id ∈ chs)
      (hmiss : ∀ key cmd ttl now, e ≠ .missed key cmd ttl now)
      (hwaits : ∀ key cmd id, e ≠ .waits key cmd id)

variable {b b' : FlightBook}

theorem Released.mono {id : Nat} {after : List CacheEvent} (h : b.Released key cmd id after)
    (hwait : ∀ id ∈ b.settled, b'.wait id = b.wait id)
    (hsettled : ∀ id ∈ b.settled, id ∈ b'.settled) (more : List CacheEvent) :
    b'.Released key cmd id (after ++ more) := by
  obtain ⟨first, e, later, rfl, hfirst, hid, hreleases⟩ := h
  exact ⟨first, e, later ++ more, by simp, hfirst, hsettled id hid, hwait id hid ▸ hreleases⟩

-- nothing in place changes and nothing new is waited for
theorem Sound.quiet (h : Sound b) (hsame : Same b b') (hlog : b'.log = b.log) : Sound b' where
  ended hclosed := hlog ▸ h.ended (hsame.closed hclosed)
  flying key cmd := by
    simp only [hsame.pending, hlog]
    exact h.flying key cmd
  apart := hlog ▸ h.apart
  made key cmd id hp := hsame.next ▸ h.made key cmd id ((hsame.pending key cmd id).mp hp)
  place key cmd key' cmd' id hp hp' :=
    h.place key cmd key' cmd' id ((hsame.pending _ _ _).mp hp) ((hsame.pending _ _ _).mp hp')
  once := hsame.settled.nodup_iff.mpr h.once
  record := hlog ▸ hsame.settled.trans h.record
  gone id hid := by
    simp only [hsame.pending, hsame.next]
    exact h.gone id (hsame.settled.mem_iff.mp hid)
  waiting before after key cmd id heq := by
    rw [hlog] at heq
    rcases h.waiting before after key cmd id heq with hp | hreleased
    · exact .inl ⟨(hsame.pending key cmd id).mpr hp.1, hp.2⟩
    · right
      rw [← append_nil after]
      exact hreleased.mono hsame.wait (fun id hid => hsame.settled.mem_iff.mpr hid) []

variable {e : CacheEvent}

variable (h : Sound b)

include h

theorem Sound.waiting_snoc (hlog : b'.log = b.log ++ [e])
    (hwait : ∀ id ∈ b.settled, b'.wait id = b.wait id)
    (hsettled : ∀ id ∈ b.settled, id ∈ b'.settled)
    (hnew : ∀ key cmd id, e = .waits key cmd id → b'.pending key cmd id)
    (hold : ∀ key cmd id, b.pending key cmd id →
      (b'.pending key cmd id ∧ ¬ e.Ends key cmd) ∨
      (id ∈ b'.settled ∧ e.Releases key cmd id (b'.wait id)))
    (before after : List CacheEvent) (key cmd : Bytes) (id : Nat)
    (heq : b'.log = before ++ .waits key cmd id :: after) :
    (b'.pending key cmd id ∧ ∀ e ∈ after, ¬ e.Ends key cmd) ∨ b'.Released key cmd id after := by
  rw [hlog] at heq
  rcases snoc_eq_append_cons heq with ⟨rfl, he, -⟩ | ⟨l, rfl, hbefore⟩
  · exact .inl ⟨hnew key cmd id he, nofun⟩
  · rcases h.waiting before l key cmd id hbefore with ⟨hp, hno⟩ | hreleased
    · rcases hold key cmd id hp with ⟨hp', hend⟩ | ⟨hid, hreleases⟩
      · exact .inl ⟨hp', forall_mem_append.mpr ⟨hno, forall_mem_singleton.mpr hend⟩⟩
      · -- this is the first event after the entry was handed out that ends the request
        exact .inr ⟨l, e, [], rfl, hno, hid, hreleases⟩
    · exact .inr (hreleased.mono hwait hsettled [e])

theorem Sound.ended_snoc (hlog : b'.log = b.log ++ [e]) (hclosed : b.closed) :
    ∃ x ∈ b'.log, x.Closes := by
  obtain ⟨x, hx, hcloses⟩ := h.ended hclosed
  exact ⟨x, hlog ▸ mem_append_left _ hx, hcloses⟩

theorem Sound.opened {ttl now : Int} (hnone : ∀ id, ¬ b.pending key cmd id)
    (hclosed : b'.closed → b.closed) (hnext : b'.next = b.next + 1)
    (hpending : ∀ key' cmd' id, b'.pending key' cmd' id ↔
      b.pending key' cmd' id ∨ key' = key ∧ cmd' = cmd ∧ id = b.next)
    (hwait : ∀ id ∈ b.settled, b'.wait id = b.wait id) (hsettled : b'.settled = b.settled)
    (hlog : b'.log = b.log ++ [.missed key cmd ttl now]) : Sound b' where
  ended hclosed' := h.ended_snoc hlog (hclosed hclosed')
  flying key' cmd' := by
    simp only [hpending, hlog]
    by_cases hsame : key' = key ∧ cmd' = cmd
    · exact .inl ⟨b.next, .inr ⟨hsame.1, hsame.2, rfl⟩⟩
    · rcases h.flying key' cmd' with ⟨id, hp⟩ | hall
      · exact .inl ⟨id, .inl hp⟩
      · right
        apply hall.snoc
        rintro ⟨ttl', now', ⟨⟩⟩
        exact hsame ⟨rfl, rfl⟩
  apart key' cmd' := by
    rw [hlog]
    apply (h.apart key' cmd').snoc
    -- the place was free, so every miss before this one was answered
    rintro ⟨ttl', now', ⟨⟩⟩
    exact (h.flying key cmd).resolve_left fun ⟨id, hp⟩ => hnone id hp
  made key' cmd' id hp := by
    rw [hnext]
    rcases (hpending key' cmd' id).mp hp with hp | ⟨-, -, rfl⟩
    · exact Nat.lt_succ_of_lt (h.made key' cmd' id hp)
    · exact Nat.lt_succ_self _
  place key₁ cmd₁ key₂ cmd₂ id hp₁ hp₂ := by
    rcases (hpending _ _ _).mp hp₁ with hp₁ | ⟨rfl, rfl, rfl⟩
    · rcases (hpending _ _ _).mp hp₂ with hp₂ | ⟨-, -, rfl⟩
      · exact h.place _ _ _ _ _ hp₁ hp₂
      · exact absurd (h.made _ _ _ hp₁) (Nat.lt_irrefl _)
    · rcases (hpending _ _ _).mp hp₂ with hp₂ | ⟨rfl, rfl, -⟩
      · exact absurd (h.made _ _ _ hp₂) (Nat.lt_irrefl _)
      · exact ⟨rfl, rfl⟩
  once := hsettled ▸ h.once
  record := by
    rw [hsettled, hlog, flatMap_append]
    show b.settled.Perm (_ ++ [])
    rw [append_nil]
    exact h.record
  gone id hid := by
    obtain ⟨hlt, hgone⟩ := h.gone id (hsettled ▸ hid)
    refine ⟨by omega, fun key' cmd' hp => ?_⟩
    rcases (hpending key' cmd' id).mp hp with hp | ⟨-, -, rfl⟩
    · exact hgone key' cmd' hp
    · omega
  waiting := h.waiting_snoc hlog hwait (fun id hid => hsettled ▸ hid) nofun fun key' cmd' id hp =>
    .inl ⟨(hpending _ _ _).mpr (.inl hp), CacheEvent.not_ends nofun nofun nofun⟩

theorem Sound.recorded {chs : List Nat} (honce : chs.Nodup)
    (hin : ∀ id ∈ chs, ∃ key cmd, b.pending key cmd id) (hclosed : b'.closed → b.closed ∨ e.Closes)
    (hnext : b'.next = b.next)
    (hpending : ∀ key cmd id, b'.pending key cmd id ↔ b.pending key cmd id ∧ id ∉ chs)
    (hwait : ∀ id ∈ b.settled, b'.wait id = b.wait id)
    (hsettled : b'.settled.Perm (chs ++ b.settled)) (hlog : b'.log = b.log ++ [e])
    (hevent : e.settled = chs)
    (hreleases : ∀ key cmd, ∀ id ∈ chs, b.pending key cmd id → e.Releases key cmd id (b'.wait id))
    (hends : ∀ key cmd id, e.Ends key cmd → b.pending key cmd id → id ∈ chs)
    (hmiss : ∀ key cmd, e.Misses key cmd → b.closed)
    (hwaits : ∀ key cmd id, e = .waits key cmd id → b.pending key cmd id ∧ id ∉ chs) :
    Sound b' := by
  have hmem : ∀ id, id ∈ b'.settled ↔ id ∈ chs ∨ id ∈ b.settled := by
    intro id
    rw [hsettled.mem_iff, mem_append]
  have hends' : b.closed ∨ e.Closes → ∃ x ∈ b'.log, x.Closes := by
    rintro (hold | hcloses)
    · exact h.ended_snoc hlog hold
    · exact ⟨e, hlog ▸ mem_append_right _ mem_cons_self, hcloses⟩
  constructor
  case ended => exact fun hclosed' => hends' (hclosed hclosed')
  case flying =>
    intro key cmd
    have hend : b.closed ∨ e.Closes → AllAnswered (CacheEvent.Misses key cmd)
        (CacheEvent.Settles key cmd) CacheEvent.Closes b'.log :=
      fun hc => .of_end (hends' hc) fun _ _ hx => hx.not_misses
    by_cases hm : e.Misses key cmd
    · exact .inr (hend (.inl (hmiss key cmd hm)))
    · simp only [hpending]
      rcases h.flying key cmd with ⟨id, hp⟩ | hall
      · by_cases hid : id ∈ chs
        · rcases (hreleases key cmd id hid hp).settles with hsettles | hcloses
          · exact .inr (hlog ▸ .snoc_answer hm hsettles)
          · exact .inr (hend (.inr hcloses))
        · exact .inl ⟨id, hp, hid⟩
      · exact .inr (hlog ▸ hall.snoc hm)
  case apart =>
    intro key cmd
    rw [hlog]
    apply (h.apart key cmd).snoc
    exact fun hm => .of_end (h.ended (hmiss key cmd hm)) fun _ _ hx => hx.not_misses
  case made => exact fun key cmd id hp => hnext ▸ h.made key cmd id ((hpending _ _ _).mp hp).1
  case place =>
    intro key cmd key' cmd' id hp hp'
    exact h.place _ _ _ _ _ ((hpending _ _ _).mp hp).1 ((hpending _ _ _).mp hp').1
  case once =>
    rw [hsettled.nodup_iff, nodup_append]
    refine ⟨honce, h.once, ?_⟩
    rintro id hid _ hid' rfl
    obtain ⟨key, cmd, hp⟩ := hin id hid
    exact (h.gone id hid').2 key cmd hp
  case record =>
    rw [hlog, flatMap_append, flatMap_singleton, hevent]
    exact hsettled.trans (perm_append_comm.trans (h.record.append_right chs))
  case gone =>
    intro id hid
    simp only [hpending, hnext]
    rcases (hmem id).mp hid with hid | hid
    · obtain ⟨key, cmd, hp⟩ := hin id hid
      exact ⟨h.made key cmd id hp, fun _ _ hp => hp.2 hid⟩
    · exact ⟨(h.gone id hid).1, fun key cmd hp => (h.gone id hid).2 key cmd hp.1⟩
  case waiting =>
    refine h.waiting_snoc hlog hwait (fun id hid => (hmem id).mpr (.inr hid)) (fun key cmd id he =>
      (hpending _ _ _).mpr (hwaits key cmd id he)) fun key cmd id hp => ?_
    by_cases hid : id ∈ chs
    · exact .inr ⟨(hmem id).mpr (.inl hid), hreleases key cmd id hid hp⟩
    · exact .inl ⟨(hpending _ _ _).mpr ⟨hp, hid⟩, fun hend => hid (hends key cmd id hend hp)⟩

theorem Sound.step (hstep : Step b b') : Sound b' := by
  cases hstep with
  | quiet hsame hlog => exact h.quiet hsame hlog
  | event e hsame hlog hsettled hmiss hwaits hends =>
    exact h.recorded nodup_nil nofun (fun hc => .inl (hsame.closed hc)) hsame.next
      (fun key cmd id => by simp [hsame.pending]) hsame.wait hsame.settled hlog hsettled nofun
      (fun key cmd id hend hp => absurd hp (hends key cmd id hend)) hmiss
      fun key cmd id he => ⟨hwaits key cmd id he, not_mem_nil⟩
  | opened key cmd ttl now hnone hclosed hnext hpending hwait hsettled hlog =>
    exact h.opened hnone hclosed hnext hpending hwait hsettled hlog
  | settle chs e honce hin hclosed hnext hpending hwait hsettled hlog hevent hreleases hends hmiss
      hwaits =>
    exact h.recorded honce hin hclosed hnext hpending hwait hsettled hlog hevent hreleases hends
      (fun key cmd hm => absurd hm (CacheEvent.not_misses hmiss))
      fun key cmd id he => absurd he (hwaits key cmd id)

omit h

theorem sound_new (hclosed : ¬ b.closed) (hpending : ∀ key cmd id, ¬ b.pending key cmd id)
    (hsettled : b.settled = []) (hlog : b.log = []) : Sound b where
  ended h := absurd h hclosed
  flying key cmd := .inr (hlog ▸ allAnswered_nil)
  apart key cmd := hlog ▸ separated_nil
  made key cmd id hp := absurd hp (hpending key cmd id)
  place key cmd _ _ id hp _ := absurd hp (hpending key cmd id)
  once := hsettled ▸ nodup_nil
  record := by rw [hsettled, hlog]; exact .refl _
  gone := hsettled ▸ nofun
  waiting before after key cmd id heq := absurd (hlog.symm.trans heq) (by simp)

end FlightBook

end Rueidis
