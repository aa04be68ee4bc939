import Rueidis.Cache.Expiry
import Rueidis.Cache.LruSystem

/-!
# Coherence of the cache

A value that is served comes from the latest `Update` that settled its entry, no invalidation came
after that, and it is served only until its expiry, which neither the caller that opened the entry
nor the server set earlier.
-/

namespace Rueidis

open Lru History Heap CacheEvent Machine

theorem stamped_spec (e : CacheEntry) (value : RedisMessage) :
    (stamped e value).2 = { value with ttl := (stamped e value).2.ttl } ∧
      (stamped e value).2.getExpireAt.toInt ≤ e.val.getExpireAt.toInt ∧
      (value.getExpireAt ≠ 0 →
        (stamped e value).2.getExpireAt.toInt ≤ value.getExpireAt.toInt) := by
  unfold stamped
  dsimp only
  split
  · rename_i hclient
    refine ⟨rfl, ?_, ?_⟩
    · exact Int.le_of_eq (by rw [RedisMessage.getExpireAt_setExpireAt])
    · intro hserver
      have hlt := Int64.lt_iff_toInt_lt.mp (hclient.resolve_right hserver)
      rw [RedisMessage.getExpireAt_setExpireAt]
      omega
  · rename_i hserver
    rw [not_or, Int64.not_lt, Int64.le_iff_toInt_le] at hserver
    refine ⟨?_, hserver.1, fun _ => Int.le_refl _⟩
    cases value
    rfl

/-! ## Values and their updates -/

def Within (ttl now : Int) (v : RedisMessage) : Prop :=
  InMillis (now + ttl) → v.getExpireAt.toInt ≤ (now + ttl) / 1000000

/-- `v` is the value of the latest `Update` that settled the entry, with an expiry within that of
the flight that opened it and within its own; nothing overrode it since. -/
def FromUpdate (log : List CacheEvent) (key cmd : Bytes) (v : RedisMessage) : Prop :=
  ∃ before after value id ttl now,
    log = before ++ .updated key cmd value (some id) :: after ∧
    (∀ e ∈ after, ¬ e.Overrides key cmd) ∧
    Since before (.missed key cmd ttl now) (CacheEvent.Misses key cmd) ∧
    v = { value with ttl := v.ttl } ∧ Within ttl now v ∧
    (value.getExpireAt ≠ 0 → v.getExpireAt.toInt ≤ value.getExpireAt.toInt)

variable {log : List CacheEvent} {key cmd : Bytes} {e : CacheEvent}

theorem FromUpdate.snoc {v : RedisMessage} (h : FromUpdate log key cmd v)
    (he : ¬ e.Overrides key cmd) : FromUpdate (log ++ [e]) key cmd v := by
  obtain ⟨before, after, value, id, ttl, now, rfl, hafter, hrest⟩ := h
  refine ⟨before, after ++ [e], value, id, ttl, now, by simp, ?_, hrest⟩
  intro x hx
  rcases List.mem_append.mp hx with hx | hx
  · exact hafter x hx
  · rw [List.mem_singleton.mp hx]
    exact he

def Requested (log : List CacheEvent) (key cmd : Bytes) (v : RedisMessage) : Prop :=
  ∃ ttl now, Since log (.missed key cmd ttl now) (CacheEvent.Misses key cmd) ∧ Within ttl now v

theorem Requested.snoc {v : RedisMessage} (h : Requested log key cmd v) (he : ¬ e.Misses key cmd) :
    Requested (log ++ [e]) key cmd v := by
  obtain ⟨ttl, now, hsince, hwithin⟩ := h
  exact ⟨ttl, now, hsince.snoc he, hwithin⟩

def Sourced (log : List CacheEvent) (key cmd : Bytes) (e : CacheEntry) : Prop :=
  if e.pending then Requested log key cmd e.val else FromUpdate log key cmd e.val

theorem Sourced.snoc {x : CacheEntry} (h : Sourced log key cmd x)
    (hover : ¬ x.pending → ¬ e.Overrides key cmd) (hmiss : ¬ e.Misses key cmd) :
    Sourced (log ++ [e]) key cmd x := by
  unfold Sourced at h ⊢
  by_cases hp : x.pending
  · rw [if_pos hp] at h ⊢
    exact h.snoc hmiss
  · rw [if_neg hp] at h ⊢
    exact h.snoc (hover hp)

def HitsFromUpdate (log : List CacheEvent) : Prop :=
  ∀ before after key cmd now v, log = before ++ .hit key cmd now v :: after →
    FromUpdate before key cmd v ∧ v.typ ≠ 0 ∧ (InMillis now → now / 1000000 < v.getExpireAt.toInt)

theorem HitsFromUpdate.snoc (h : HitsFromUpdate log) (he : ∀ key cmd now v, e ≠ .hit key cmd now v) :
    HitsFromUpdate (log ++ [e]) := by
  intro before after key cmd now v hlog
  rcases snoc_eq_append_cons hlog with ⟨-, heq, -⟩ | ⟨l, rfl, hold⟩
  · exact absurd heq (he key cmd now v)
  · exact h before l key cmd now v hold

structure CoherenceInv (s : LruSystem) : Prop where
  sourced : ∀ key cmd id, s.lru.elem key cmd = some id →
    Sourced s.log key cmd (s.lru.entry id)
  hits : HitsFromUpdate s.log

namespace CoherenceInv

variable {P : RedisMessage → Prop} {s s' : LruSystem} {c : Lru} {closing closed : List Nat}
  {e : CacheEvent}

variable (h : CoherenceInv s)

include h

theorem frame
    (hsub : ∀ key cmd id, c.elem key cmd = some id →
      s.lru.elem key cmd = some id ∧ c.entry id = s.lru.entry id)
    (hover : ∀ key cmd id, c.elem key cmd = some id → ¬ (s.lru.entry id).pending →
      ¬ e.Overrides key cmd)
    (hmiss : ∀ key cmd ttl now, e ≠ .missed key cmd ttl now)
    (hhit : ∀ key cmd now v, e ≠ .hit key cmd now v) :
    CoherenceInv ⟨c, closing, closed, s.log ++ [e]⟩ where
  sourced := by
    intro key cmd id hplace
    obtain ⟨hold, hentry⟩ := hsub key cmd id hplace
    rw [hentry]
    apply (h.sourced key cmd id hold).snoc (hover key cmd id hplace)
    rintro ⟨ttl, now, heq⟩
    exact hmiss key cmd ttl now heq
  hits := h.hits.snoc hhit

theorem snoc (hupdate : ∀ key cmd value id, e ≠ .updated key cmd value (some id))
    (hdelete : ∀ keys, e ≠ .deleted keys) (hmiss : ∀ key cmd ttl now, e ≠ .missed key cmd ttl now)
    (hhit : ∀ key cmd now v, e ≠ .hit key cmd now v) :
    CoherenceInv ⟨s.lru, closing, closed, s.log ++ [e]⟩ :=
  h.frame (fun _ _ _ hplace => ⟨hplace, rfl⟩)
    (fun _ _ _ _ _ => not_overrides hupdate hdelete) hmiss hhit

theorem hit {now : Int} {id : Nat} (hplace : s.lru.elem key cmd = some id)
    (hvalue : ¬ (s.lru.entry id).pending) (hlive : 0 < (s.lru.entry id).val.relativePTTL now) :
    CoherenceInv ⟨s.lru, closing, closed, s.log ++ [.hit key cmd now (s.lru.entry id).val]⟩ where
  sourced := by
    intro key' cmd' id' hplace'
    apply (h.sourced key' cmd' id' hplace').snoc
    · exact fun _ => not_overrides nofun nofun
    · rintro ⟨_, _, heq⟩
      cases heq
  hits := by
    intro before after key' cmd' now' v hlog
    rcases snoc_eq_append_cons hlog with ⟨-, heq, rfl⟩ | ⟨l, rfl, hold⟩
    · cases heq
      have hserved := h.sourced key cmd id hplace
      unfold Sourced at hserved
      rw [if_neg hvalue] at hserved
      exact ⟨hserved, hvalue, fun hnow => lt_of_relativePTTL_pos hnow hlive⟩
    · exact h.hits before l key' cmd' now' v hold

theorem opened {ttl now : Int} {k : Nat} (hok : Ok s.lru)
    (hentries : c.entries = s.lru.entries.alloc (pendingEntry k cmd ttl now))
    (helem : ∀ key' cmd', c.elem key' cmd' =
      if key' = key ∧ cmd' = cmd then some s.lru.entries.next else s.lru.elem key' cmd') :
    CoherenceInv ⟨c, closing, closed, s.log ++ [.missed key cmd ttl now]⟩ where
  sourced := by
    intro key' cmd' id hplace
    show Sourced (s.log ++ [_]) key' cmd' (c.entries.get id)
    have hplace : c.elem key' cmd' = some id := hplace
    rw [helem] at hplace
    rw [hentries]
    by_cases hsame : key' = key ∧ cmd' = cmd
    · rw [if_pos hsame] at hplace
      cases hplace
      obtain ⟨rfl, rfl⟩ := hsame
      rw [get_alloc_self]
      -- the new entry is pending, and its expiry is what the caller gave
      exact ⟨ttl, now, since_self, fun hin => Int.le_of_eq (expireAt_unixMilli hin _)⟩
    · rw [if_neg hsame] at hplace
      rw [get_alloc_ne _ _ (Nat.ne_of_lt (hok.lt_next hplace))]
      apply (h.sourced key' cmd' id hplace).snoc
      · exact fun _ => not_overrides nofun nofun
      · rintro ⟨_, _, heq⟩
        cases heq
        exact hsame ⟨rfl, rfl⟩
  hits := h.hits.snoc nofun

theorem stored {value : RedisMessage} {id : Nat} (hok : Ok s.lru)
    (hplace : s.lru.elem key cmd = some id) (hp : (s.lru.entry id).pending) :
    CoherenceInv ⟨s.lru.fill key cmd id (stamped (s.lru.entry id) value).2, closing, closed,
      s.log ++ [.updated key cmd value (some id)]⟩ where
  sourced := by
    intro key' cmd' id' hplace'
    have hplace' : s.lru.elem key' cmd' = some id' := hplace'
    show Sourced (s.log ++ [_]) key' cmd' ((s.lru.entries.set id _).get id')
    by_cases hii : id = id'
    · subst hii
      obtain ⟨rfl, rfl⟩ := hok.elem_inj hplace hplace'
      rw [get_set_self]
      have hasked := h.sourced _ _ id hplace
      unfold Sourced at hasked
      rw [if_pos hp] at hasked
      obtain ⟨ttl, now, hsince, hwithin⟩ := hasked
      obtain ⟨hsame, hclient, hserver⟩ := stamped_spec (s.lru.entry id) value
      have hwithin' : Within ttl now (stamped (s.lru.entry id) value).2 :=
        fun hin => Int.le_trans hclient (hwithin hin)
      unfold Sourced
      split
      · -- a value without a type leaves the entry pending
        refine ⟨ttl, now, hsince.snoc ?_, hwithin'⟩
        rintro ⟨_, _, heq⟩
        cases heq
      · exact ⟨s.log, [], value, id, ttl, now, rfl, nofun, hsince, hsame, hwithin', hserver⟩
    · have hne : ¬ (key' = key ∧ cmd' = cmd) := by
        rintro ⟨rfl, rfl⟩
        cases hplace.symm.trans hplace'
        exact hii rfl
      rw [get_set_ne _ _ hii]
      apply (h.sourced key' cmd' id' hplace').snoc
      · rintro - (⟨_, _, heq⟩ | ⟨_, heq, -⟩)
        · cases heq
          exact hne ⟨rfl, rfl⟩
        · cases heq
      · rintro ⟨_, _, heq⟩
        cases heq
  hits := h.hits.snoc nofun

theorem moved (hok : Ok s.lru) (hm : LruMoved P s s') : CoherenceInv s' := by
  cases hm with
  | quiet c _ hc =>
    refine ⟨?_, h.hits⟩
    intro key cmd id hplace
    rw [hc.entry]
    exact h.sourced key cmd id (hc.sub _ _ _ hplace)
  | waits key cmd id hplace hp => exact h.snoc nofun nofun nofun nofun
  | hit key cmd now id hplace hvalue hlive => exact h.hit hplace hvalue hlive
  | missed key cmd ttl now hs =>
    refine ⟨?_, h.hits.snoc nofun⟩
    intro key' cmd' id hplace
    have hplace : s.lru.elem key' cmd' = some id := hplace
    unfold elem keyCache at hplace
    rw [hs] at hplace
    cases hplace
  | opened key cmd ttl now c k hdead _ hs hentries helem => exact h.opened hok hentries helem
  | updated key cmd value hnone => exact h.snoc nofun nofun nofun nofun
  | stored key cmd value id hplace hp hvalue => exact h.stored hok hplace hp
  | cancelled key cmd err hnone => exact h.snoc nofun nofun nofun nofun
  | removed key cmd err c id hplace hp _ hentries hs helem =>
    refine h.frame ?_ ?_ nofun nofun
    · intro key' cmd' id' hplace'
      rw [helem] at hplace'
      split at hplace'
      · cases hplace'
      · rename_i hne
        refine ⟨hplace', ?_⟩
        unfold entry
        rw [hentries]
        apply get_set_ne
        rintro rfl
        obtain ⟨rfl, rfl⟩ := hok.elem_inj hplace hplace'
        exact hne ⟨rfl, rfl⟩
    · exact fun _ _ _ _ _ => not_overrides nofun nofun
  | deleted keys c _ hc hgone =>
    refine h.frame ?_ ?_ nofun nofun
    · exact fun key cmd id hplace => ⟨hc.sub _ _ _ hplace, hc.entry id⟩
    · -- a value that is left has a key that is not covered
      rintro key cmd id hplace hvalue (⟨_, _, heq⟩ | ⟨keys', heq, hcovers⟩)
      · cases heq
      · cases heq
        exact hvalue (hgone key cmd id hcovers hplace)
  | closed err c chs hs _ hnext honce hchs hentry =>
    refine ⟨?_, h.hits.snoc nofun⟩
    intro key cmd id hplace
    have hplace : c.elem key cmd = some id := hplace
    unfold elem keyCache at hplace
    rw [hs] at hplace
    cases hplace
  | released id hid => exact ⟨h.sourced, h.hits⟩

end CoherenceInv

/-! ## Runs -/

/-- In every run, a hit of a key and a command returns the value of the latest `Update` that settled
a pending entry for them; no `Delete` of the key came after that; and neither the expiry of the
flight that opened the entry nor that of the value is past. -/
theorem lru_coherence (max : Int) (acts : List LruAct) (s : LruSystem)
    (h : run lruStep (newLruSystem max) acts = some s) (before after : List CacheEvent)
    (key cmd : Bytes) (now : Int) (v : RedisMessage)
    (hlog : s.log = before ++ .hit key cmd now v :: after) (hnow : InMillis now) :
    ∃ earlier later value id ttl now₀,
      before = earlier ++ .updated key cmd value (some id) :: later ∧
      v = { value with ttl := v.ttl } ∧ v.typ ≠ 0 ∧
      (∀ value' id', .updated key cmd value' (some id') ∉ later) ∧
      (∀ keys, Covers keys key → .deleted keys ∉ later) ∧
      Since earlier (.missed key cmd ttl now₀) (CacheEvent.Misses key cmd) ∧
      now / 1000000 < v.getExpireAt.toInt ∧
      (InMillis (now₀ + ttl) → v.getExpireAt.toInt ≤ (now₀ + ttl) / 1000000) ∧
      (value.getExpireAt ≠ 0 → v.getExpireAt.toInt ≤ value.getExpireAt.toInt) := by
  have hnew : CoherenceInv (newLruSystem max) := by
    constructor
    · intro key cmd id hplace
      cases show (none : Option Nat) = some id from hplace
    · intro before after key cmd now v hlog
      exact absurd hlog (by simp [newLruSystem])
  have hacts : ∀ a ∈ acts, a.Gives fun _ => True := by
    intro a _
    cases a <;> trivial
  have hinv : CoherenceInv s :=
    lruRun_invariant hnew (fun _ _ hok hs hm => hs.moved hok hm) hacts h
  obtain ⟨hserved, htyp, hlater⟩ := hinv.hits before after key cmd now v hlog
  obtain ⟨earlier, later, value, id, ttl, now₀, hbefore, hover, hsince, hsame, hwithin, hserver⟩ :=
    hserved
  refine ⟨earlier, later, value, id, ttl, now₀, hbefore, hsame, htyp, ?_, ?_, hsince, hlater hnow,
    hwithin, hserver⟩
  · intro value' id' hmem
    exact hover _ hmem (.inl ⟨value', id', rfl⟩)
  · intro keys hcovers hmem
    exact hover _ hmem (.inr ⟨keys, rfl, hcovers⟩)

theorem lru_coherence_shortened :
    let value : RedisMessage := { typ := 43, bytes := some [118], ttl := 12 }
    let acts : List LruAct := [.opens 5000000 [([107], [71], 10000000)] [.missed],
      .update [107] [71] value, .look 6000000 [([107], [71], 10000000)]]
    ∃ s v before, run lruStep (newLruSystem 1000) acts = some s ∧
      s.log = before ++ [.hit [107] [71] 6000000 v] ∧ v = value ∧ 6 < v.getExpireAt.toInt := by
  intro value acts
  have hlog : (run lruStep (newLruSystem 1000) acts).map LruSystem.log =
      some ([.missed [107] [71] 10000000 5000000, .updated [107] [71] value (some 0)] ++
        [.hit [107] [71] 6000000 value]) := by
    dsimp only [acts, value]
    rfl
  cases hrun : run lruStep (newLruSystem 1000) acts with
  | none =>
    rw [hrun] at hlog
    cases hlog
  | some s =>
    rw [hrun] at hlog
    have hlog := Option.some.inj hlog
    obtain ⟨_, _, _, _, _, _, -, -, -, -, -, -, hlater, -⟩ :=
      lru_coherence 1000 acts s hrun _ [] [107] [71] 6000000 value hlog ⟨by decide, by decide⟩
    exact ⟨s, value, _, rfl, hlog, rfl, hlater⟩

end Rueidis
