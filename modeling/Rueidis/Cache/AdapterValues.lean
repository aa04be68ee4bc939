import Rueidis.Cache.AdapterFlights
import Rueidis.Cache.Expiry
import Rueidis.CacheKeys

/-!
# Values of the adapter

The values are found under the key and the command written one after the other, and this text does
not tell where the key ends.  So a lookup may be answered with the value of another command.  A value
can also outlive a `Delete`, when a request is out for its place at that time: a late caller whose
clock reading is older, or one that came between the two sections of a `Flight`, then still finds it.
-/

namespace Rueidis

open History List Machine CacheEvent

variable {σ : Type} (sc : SimpleCache σ) {view : σ → Bytes → Option RedisMessage}

/-! ## The cache under the adapter -/

namespace Adapter

variable (hmap : sc.IsMap view)

include hmap

theorem view_delLoop (key : Bytes) (cmds : List (Sigma fun _ : Bytes => Option Nat)) (s : σ)
    (es : EntryMap) :
    (∀ t v, view (delLoop sc key s es cmds).1 t = some v → view s t = some v) ∧
      ∀ cmd, ⟨cmd, none⟩ ∈ cmds → view (delLoop sc key s es cmds).1 (key ++ cmd) = none := by
  induction cmds generalizing s es with
  | nil => exact ⟨fun _ _ hv => hv, nofun⟩
  | cons p cmds ih =>
    obtain ⟨cmd', e⟩ := p
    cases e with
    | some id =>
      obtain ⟨hsub, hgone⟩ := ih s es
      exact ⟨hsub, fun cmd hmem => hgone cmd ((mem_cons.mp hmem).resolve_left nofun)⟩
    | none =>
      obtain ⟨hsub, hgone⟩ := ih (sc.del s (key ++ cmd')) (es.erase cmd')
      have hback : ∀ t v, view (sc.del s (key ++ cmd')) t = some v →
          t ≠ key ++ cmd' ∧ view s t = some v := by
        intro t v hv
        rw [hmap.del] at hv
        split at hv
        · cases hv
        next ht => exact ⟨ht, hv⟩
      refine ⟨fun t v hv => (hback t v (hsub t v hv)).2, fun cmd hmem => ?_⟩
      rcases mem_cons.mp hmem with heq | hmem
      · cases heq
        -- it is gone, and the rest of the loop brings nothing back
        exact Option.eq_none_iff_forall_ne_some.mpr fun v hv => (hback _ v (hsub _ v hv)).1 rfl
      · exact hgone cmd hmem

theorem view_del (key : Bytes) (a : Adapter σ) :
    (∀ t v, view (a.del sc key).store t = some v → view a.store t = some v) ∧
      ∀ cmd, a.marker key cmd = some none → view (a.del sc key).store (key ++ cmd) = none := by
  unfold del
  cases hes : a.entriesOf key with
  | none => exact ⟨fun _ _ hv => hv, fun cmd hm => by simp [marker, hes] at hm⟩
  | some es =>
    obtain ⟨hsub, hgone⟩ := view_delLoop sc hmap key es.entries a.store es
    refine ⟨hsub, fun cmd hm => hgone cmd (AList.mem_lookup_iff.mp ?_)⟩
    simpa [marker, hes] using hm

theorem view_delKeys (keys : List Bytes) (a : Adapter σ) :
    (∀ t v, view (keys.foldl (del sc) a).store t = some v → view a.store t = some v) ∧
      ∀ key ∈ keys, ∀ cmd, a.marker key cmd = some none →
        view (keys.foldl (del sc) a).store (key ++ cmd) = none := by
  induction keys generalizing a with
  | nil => exact ⟨fun _ _ hv => hv, nofun⟩
  | cons k keys ih =>
    rw [foldl_cons]
    obtain ⟨hsub, hgone⟩ := ih (a.del sc k)
    obtain ⟨hsub', hgone'⟩ := view_del sc hmap k a
    refine ⟨fun t v hv => hsub' t v (hsub t v hv), fun key hkey cmd hm => ?_⟩
    by_cases hk : key = k
    · subst hk
      refine Option.eq_none_iff_forall_ne_some.mpr fun v hv => ?_
      cases (hgone' cmd hm).symm.trans (hsub _ v hv)
    · apply hgone key ((mem_cons.mp hkey).resolve_left hk)
      rwa [marker_del, if_neg fun h => hk h.1]

/-- `Delete` brings nothing into the cache, and drops the marked values of the keys it covers. -/
theorem view_delete (keys : Option (List RedisMessage)) (a : Adapter σ) :
    (∀ t v, view (a.delete sc keys).store t = some v → view a.store t = some v) ∧
      ∀ key cmd, Covers keys key → a.marker key cmd = some none →
        view (a.delete sc keys).store (key ++ cmd) = none := by
  cases keys with
  | none =>
    obtain ⟨hsub, hgone⟩ := view_delKeys sc hmap (a.flights.getD ∅).keys a
    refine ⟨hsub, fun key cmd _ hm => hgone key (mem_keys_of_marker hm) cmd hm⟩
  | some keys =>
    rw [delete_named]
    obtain ⟨hsub, hgone⟩ := view_delKeys sc hmap (keys.map RedisMessage.string) a
    exact ⟨hsub, fun key cmd hcovers hm => hgone key (mem_map.mpr hcovers) cmd hm⟩

end Adapter

/-! ## Where a value comes from -/

def Unambiguous (log : List CacheEvent) (key cmd : Bytes) : Prop :=
  ∀ key' cmd' val id, .updated key' cmd' val (some id) ∈ log → key' ++ cmd' = key ++ cmd →
    key' = key ∧ cmd' = cmd

/-- `v` is the value of the last `Update` of the key and the command, which were not deleted
since. -/
def Kept (log : List CacheEvent) (key cmd : Bytes) (v : RedisMessage) : Prop :=
  ∃ before after val id, log = before ++ .updated key cmd val (some id) :: after ∧
    (∀ e ∈ after, ¬ e.Overrides key cmd) ∧ v = { val with ttl := v.ttl }

/-- A request was made for the key and the command when `v` had no time left. -/
def Outlived (log : List CacheEvent) (key cmd : Bytes) (v : RedisMessage) : Prop :=
  ∃ ttl now, .missed key cmd ttl now ∈ log ∧ ¬ 0 < v.relativePTTL now

/-- What is asked of a step.  A lookup is for a text that no other pair was stored under, and its
time is not before that of a miss of the same pair; where a `Flight` makes an entry there is no
value with time left, so no `Update` came between its two sections. -/
def AdapterAct.Clear (s : AdapterSystem σ) : AdapterAct → Prop
  | .look key cmd now =>
    Unambiguous s.log key cmd ∧ ∀ ttl now', .missed key cmd ttl now' ∈ s.log →
      0 ≤ (unixMilli now').toInt ∧ (unixMilli now').toInt ≤ (unixMilli now).toInt
  | .opens key cmd _ now =>
    (∃ id, s.adapter.flightAt key cmd = some id) ∨ ∀ v, s.adapter.look sc key cmd now ≠ .hit v
  | _ => True

variable {log : List CacheEvent} {key cmd : Bytes} {v : RedisMessage}

theorem Unambiguous.of_snoc {e : CacheEvent} (h : Unambiguous (log ++ [e]) key cmd) :
    Unambiguous log key cmd :=
  fun key' cmd' val id hmem => h key' cmd' val id (mem_append_left _ hmem)

theorem Kept.snoc {e : CacheEvent} (h : Kept log key cmd v) (he : ¬ e.Overrides key cmd) :
    Kept (log ++ [e]) key cmd v := by
  obtain ⟨before, after, val, id, rfl, hafter, hsame⟩ := h
  exact ⟨before, after ++ [e], val, id, by simp,
    forall_mem_append.mpr ⟨hafter, forall_mem_singleton.mpr he⟩, hsame⟩

theorem Outlived.snoc (h : Outlived log key cmd v) (e : CacheEvent) :
    Outlived (log ++ [e]) key cmd v := by
  obtain ⟨ttl, now, hmem, hdead⟩ := h
  exact ⟨ttl, now, mem_append_left _ hmem, hdead⟩

theorem AdapterEntry.stamped_same (e : AdapterEntry) (val : RedisMessage) :
    (e.stamped val).2 = { val with ttl := (e.stamped val).2.ttl } := by
  unfold AdapterEntry.stamped
  dsimp only
  split
  · rfl
  · cases val
    rfl

structure ValuesInv (view : σ → Bytes → Option RedisMessage) (s : AdapterSystem σ) : Prop where
  /-- A value has a nil marker, or there was a request for its place after it had expired. -/
  stored : ∀ key cmd v, view s.adapter.store (key ++ cmd) = some v → v.typ ≠ 0 →
    Unambiguous s.log key cmd →
    (s.adapter.marker key cmd = some none ∧ Kept s.log key cmd v) ∨ Outlived s.log key cmd v
  hits : ∀ before after key cmd now v, s.log = before ++ .hit key cmd now v :: after →
    Kept before key cmd v

namespace ValuesInv

variable {s : AdapterSystem σ} {a : Adapter σ} {closing : List (Nat × Err)} {closed : List Nat}
  {e : CacheEvent}

variable (h : ValuesInv view s)

include h

theorem hits_snoc (he : ∀ key cmd now v, e ≠ .hit key cmd now v) (before after : List CacheEvent)
    (key cmd : Bytes) (now : Int) (v : RedisMessage)
    (hlog : s.log ++ [e] = before ++ .hit key cmd now v :: after) : Kept before key cmd v := by
  rcases snoc_eq_append_cons hlog with ⟨-, heq, -⟩ | ⟨l, rfl, hold⟩
  · exact absurd heq (he key cmd now v)
  · exact h.hits before l key cmd now v hold

theorem frame (hview : ∀ t v, view a.store t = some v → view s.adapter.store t = some v)
    (hmark : ∀ key cmd v, view a.store (key ++ cmd) = some v → v.typ ≠ 0 →
      s.adapter.marker key cmd = some none →
      (a.marker key cmd = some none ∧ ¬ e.Overrides key cmd) ∨ Outlived (s.log ++ [e]) key cmd v)
    (he : ∀ key cmd now v, e ≠ .hit key cmd now v) :
    ValuesInv view ⟨a, closing, closed, s.log ++ [e]⟩ where
  stored key cmd v hv htyp hunamb := by
    rcases h.stored key cmd v (hview _ v hv) htyp hunamb.of_snoc with ⟨hm, hkept⟩ | hout
    · rcases hmark key cmd v hv htyp hm with ⟨hm', hover⟩ | hout
      · exact .inl ⟨hm', hkept.snoc hover⟩
      · exact .inr hout
    · exact .inr (hout.snoc e)
  hits := h.hits_snoc he

theorem report (hupdate : ∀ key cmd value id, e ≠ .updated key cmd value (some id))
    (hdelete : ∀ keys, e ≠ .deleted keys) (he : ∀ key cmd now v, e ≠ .hit key cmd now v) :
    ValuesInv view ⟨s.adapter, closing, closed, s.log ++ [e]⟩ :=
  h.frame (fun _ _ hv => hv)
    (fun _ _ _ _ _ hm => .inl ⟨hm, not_overrides hupdate hdelete⟩) he

theorem hit {now : Int} (hmap : sc.IsMap view) (hclear : AdapterAct.Clear sc s (.look key cmd now))
    (hlook : s.adapter.look sc key cmd now = .hit v) :
    ValuesInv view ⟨s.adapter, closing, closed, s.log ++ [.hit key cmd now v]⟩ where
  stored key' cmd' v' hv htyp hunamb := by
    rcases h.stored key' cmd' v' hv htyp hunamb.of_snoc with ⟨hm, hkept⟩ | hout
    · exact .inl ⟨hm, hkept.snoc (not_overrides nofun nofun)⟩
    · exact .inr (hout.snoc _)
  hits before after key' cmd' now' v' hlog := by
    rcases snoc_eq_append_cons hlog with ⟨-, heq, rfl⟩ | ⟨l, rfl, hold⟩
    · cases heq
      obtain ⟨hget, htyp, hlive⟩ := Adapter.look_eq_hit sc hlook
      have hview : view s.adapter.store (key ++ cmd) = some v := by
        rw [hmap.get] at hget
        cases hv : view s.adapter.store (key ++ cmd) <;> rw [hv] at hget
        · exact absurd (congrArg RedisMessage.typ hget) htyp
        · exact congrArg some hget.symm
      rcases h.stored key cmd v hview htyp hclear.1 with ⟨-, hkept⟩ | ⟨ttl, now', hmiss, hdead⟩
      · exact hkept
      · -- it had no time left at an earlier time, so it has none now
        obtain ⟨h0, hle⟩ := hclear.2 ttl now' hmiss
        exact absurd (relativePTTL_pos_of_le h0 hle hlive) hdead
    · exact h.hits before l key' cmd' now' v' hold

theorem opened {ttl now : Int} (hmap : sc.IsMap view)
    (hclear : ∀ v, s.adapter.look sc key cmd now ≠ .hit v) (hopen : s.adapter.flights.isSome) :
    ValuesInv view ⟨{ s.adapter.setMarker key cmd (some s.adapter.entries.next) with
        entries := s.adapter.entries.alloc { xat := unixMilli (now + ttl) } },
      closing, closed, s.log ++ [.missed key cmd ttl now]⟩ := by
  refine h.frame (fun _ _ hv => hv) ?_ nofun
  intro key' cmd' v hv htyp hm
  by_cases hsame : key' = key ∧ cmd' = cmd
  · obtain ⟨rfl, rfl⟩ := hsame
    refine .inr ⟨ttl, now, mem_append_right _ mem_cons_self, fun hlive => hclear v ?_⟩
    have hget : sc.get s.adapter.store (key' ++ cmd') = v := by
      rw [hmap.get, show view s.adapter.store (key' ++ cmd') = some v from hv]
      rfl
    unfold Adapter.look
    rw [hget, if_pos ⟨htyp, hlive⟩]
  · refine .inl ⟨?_, not_overrides nofun nofun⟩
    show (s.adapter.setMarker key cmd _).marker key' cmd' = some none
    rw [Adapter.marker_setMarker hopen, if_neg hsame, hm]

theorem updated {val : RedisMessage} {id : Nat} (hmap : sc.IsMap view)
    (hp : s.adapter.flightAt key cmd = some id) : ValuesInv view ⟨(({ s.adapter with
          store := sc.set s.adapter.store (key ++ cmd) ((s.adapter.entry id).stamped val).2 } :
        Adapter σ).setEntry id ((s.adapter.entry id).stamped val).2 none).setMarker key cmd none,
      closing, closed, s.log ++ [.updated key cmd val (some id)]⟩ where
  stored key' cmd' v hv htyp hunamb := by
    have hopen : (({ s.adapter with
          store := sc.set s.adapter.store (key ++ cmd) ((s.adapter.entry id).stamped val).2 } :
        Adapter σ).setEntry id ((s.adapter.entry id).stamped val).2 none).flights.isSome :=
      Adapter.isSome_of_marker (Adapter.flightAt_eq_some.mp hp)
    have hmarker : (Adapter.setMarker _ key cmd none).marker key' cmd' = _ :=
      Adapter.marker_setMarker hopen none key' cmd'
    have hv : view (sc.set s.adapter.store (key ++ cmd) ((s.adapter.entry id).stamped val).2)
        (key' ++ cmd') = some v := hv
    rw [hmap.set] at hv
    by_cases htext : key' ++ cmd' = key ++ cmd
    · -- the text was stored for `key` and `cmd`, so no other pair is unambiguous
      obtain ⟨rfl, rfl⟩ := hunamb key cmd val id
        (mem_append_right _ mem_cons_self) htext.symm
      rw [if_pos rfl] at hv
      rw [if_pos ⟨rfl, rfl⟩] at hmarker
      cases hv
      exact .inl ⟨hmarker, s.log, [], val, id, rfl, nofun, (s.adapter.entry id).stamped_same val⟩
    · have hsame : ¬ (key' = key ∧ cmd' = cmd) := fun h => htext (by rw [h.1, h.2])
      rw [if_neg htext] at hv
      rw [if_neg hsame] at hmarker
      rcases h.stored key' cmd' v hv htyp hunamb.of_snoc with ⟨hm, hkept⟩ | hout
      · refine .inl ⟨hmarker.trans hm, hkept.snoc ?_⟩
        rintro (⟨_, _, heq⟩ | ⟨_, heq, -⟩)
        · cases heq
          exact hsame ⟨rfl, rfl⟩
        · cases heq
      · exact .inr (hout.snoc _)
  hits := h.hits_snoc nofun

theorem cancelled {err : Err} {id : Nat} (hp : s.adapter.flightAt key cmd = some id) :
    ValuesInv view ⟨(s.adapter.setEntry id {} (some err)).setMarker key cmd none, closing, closed,
      s.log ++ [.cancelled key cmd err (some id)]⟩ := by
  have hmarker := Adapter.flightAt_eq_some.mp hp
  refine h.frame (fun _ _ hv => hv) ?_ nofun
  intro key' cmd' v _ _ hm
  refine .inl ⟨?_, not_overrides nofun nofun⟩
  have hset : ((s.adapter.setEntry id {} (some err)).setMarker key cmd none).marker key' cmd' =
      if key' = key ∧ cmd' = cmd then some none else s.adapter.marker key' cmd' :=
    Adapter.marker_setMarker (Adapter.isSome_of_marker hmarker) none key' cmd'
  rw [hset, hm, ite_self]

theorem deleted {keys : Option (List RedisMessage)} (hmap : sc.IsMap view) :
    ValuesInv view ⟨s.adapter.delete sc keys, closing, closed, s.log ++ [.deleted keys]⟩ := by
  obtain ⟨hsub, hgone⟩ := Adapter.view_delete sc hmap keys s.adapter
  refine h.frame hsub ?_ nofun
  intro key cmd v hv _ hm
  -- a value that is left under a nil marker has a key that is not covered
  have hnot : ¬ Covers keys key :=
    fun hcovers => by cases (hgone key cmd hcovers hm).symm.trans hv
  refine .inl ⟨?_, ?_⟩
  · rwa [(Adapter.marker_delete sc keys s.adapter key cmd).2 fun hc => hnot hc.1]
  · rintro (⟨_, _, heq⟩ | ⟨keys', heq, hcovers⟩)
    · cases heq
    · cases heq
      exact hnot hcovers

theorem flushed {err : Err} (hmap : sc.IsMap view) :
    ValuesInv view ⟨(s.adapter.close sc).1, closing, closed,
      s.log ++ [.closed err (s.adapter.close sc).2]⟩ where
  stored key cmd v hv := by
    cases (hmap.flush s.adapter.store (key ++ cmd)).symm.trans hv
  hits := h.hits_snoc nofun

theorem moved {s' : AdapterSystem σ} {act : AdapterAct} (hmap : sc.IsMap view)
    (hclear : act.Clear sc s) (hm : AdapterMoved sc s act s') : ValuesInv view s' := by
  cases hm with
  | nothing key cmd now => exact h
  | hit key cmd now v hlook => exact h.hit sc hmap hclear hlook
  | waits | missed | updated | cancelled => exact h.report nofun nofun nofun
  | opened key cmd ttl now hopen hnone =>
    rcases hclear with ⟨id, hp⟩ | hclear
    · cases hnone.symm.trans hp
    · exact h.opened sc hmap hclear hopen
  | stored key cmd val id hp => exact h.updated sc hmap hp
  | removed key cmd err id hp => exact h.cancelled hp
  | deleted keys => exact h.deleted sc hmap
  | closed err => exact h.flushed sc hmap
  | released id err hid => exact ⟨h.stored, h.hits⟩

end ValuesInv

/-! ## Runs -/

/-- Over a cache that behaves as a map and is empty at first, in every run whose steps are clear: a
hit returns a value that an `Update` of exactly its key and command stored, and no `Delete` of the
key came after that. -/
theorem adapter_values (hmap : sc.IsMap view) (store : σ) (hempty : ∀ t, view store t = none)
    (acts : List AdapterAct)
    (hclear : Machine.Guarded (adapterStep sc) (fun s act => act.Clear sc s) (newAdapterSystem store)
      acts)
    (s : AdapterSystem σ) (h : run (adapterStep sc) (newAdapterSystem store) acts = some s)
    (before after : List CacheEvent) (key cmd : Bytes) (now : Int) (v : RedisMessage)
    (hlog : s.log = before ++ .hit key cmd now v :: after) :
    ∃ earlier later val id, before = earlier ++ .updated key cmd val (some id) :: later ∧
      v = { val with ttl := v.ttl } ∧ ∀ keys, Covers keys key → .deleted keys ∉ later := by
  have hnew : ValuesInv view (newAdapterSystem store) := by
    refine ⟨fun key cmd v hv => ?_, fun before after key cmd now v hlog => ?_⟩
    · cases (hempty (key ++ cmd)).symm.trans hv
    · exact absurd hlog (by simp [newAdapterSystem])
  have hstep : ∀ (s : AdapterSystem σ) (act : AdapterAct) (t : AdapterSystem σ), ValuesInv view s →
      act.Clear sc s → adapterStep sc s act = some t → ValuesInv view t :=
    fun _ _ _ hs hclear hstep => hs.moved sc hmap hclear (adapterStep_moved sc hstep)
  have hinv := run_invariant_guarded (adapterStep sc) hstep hnew hclear h
  obtain ⟨earlier, later, val, id, hbefore, hover, hsame⟩ :=
    hinv.hits before after key cmd now v hlog
  exact ⟨earlier, later, val, id, hbefore, hsame,
    fun keys hcovers hmem => hover _ hmem (.inr ⟨keys, rfl, hcovers⟩)⟩

theorem adapter_values_hit :
    let value : RedisMessage := { typ := 43, bytes := some [118], ttl := 12000 }
    let acts : List AdapterAct := [.opens [107] [71] 10000000000 5000000000,
      .update [107] [71] value, .look [107] [71] 7000000000]
    ∃ s before, run (adapterStep mapCache) (newAdapterSystem fun _ => none) acts = some s ∧
      s.log = before ++ [.hit [107] [71] 7000000000 value] ∧
      ∃ val id, .updated [107] [71] val (some id) ∈ before ∧ value = { val with ttl := 12000 } := by
  intro value acts
  have hlog : (run (adapterStep mapCache) (newAdapterSystem fun _ => none) acts).map
      AdapterSystem.log = some ([.missed [107] [71] 10000000000 5000000000,
        .updated [107] [71] value (some 0)] ++ [.hit [107] [71] 7000000000 value]) := by
    dsimp only [acts, value]
    rfl
  have hclear : Machine.Guarded (adapterStep mapCache) (fun s act => act.Clear mapCache s)
      (newAdapterSystem fun _ => none) acts := by
    refine ⟨.inr nofun, ?_⟩
    rintro _ ⟨⟩
    refine ⟨trivial, ?_⟩
    rintro _ ⟨⟩
    refine ⟨⟨?_, ?_⟩, ?_⟩
    · intro key cmd val id hmem htext
      rcases mem_pair.mp hmem with heq | heq
      · cases heq
      · cases heq
        exact ⟨rfl, rfl⟩
    · intro ttl now hmem
      rcases mem_pair.mp hmem with heq | heq
      · cases heq
        decide
      · cases heq
    · exact fun _ _ => trivial
  obtain ⟨s, hrun, hlog⟩ := Option.map_eq_some_iff.mp hlog
  obtain ⟨earlier, later, val, id, hbefore, hsame, -⟩ := adapter_values mapCache mapCache_isMap
    (fun _ => none) (fun _ => rfl) acts hclear s hrun _ [] [107] [71] 7000000000 value hlog
  refine ⟨s, _, hrun, hlog, val, id, ?_, hsame⟩
  rw [hbefore]
  exact mem_append_right _ mem_cons_self

/-- The text of `HGET k fGET` is that of the `GET` of a key which ends as the other one goes on. -/
theorem adapter_hits_other_command :
    let get := newCompleted [lit "GET", lit "k\x04HGET\x04f"]
    let hget := newCompleted [lit "HGET", lit "k", lit "fGET"]
    ∃ key cmd key' cmd' acts s before now v,
      cacheKey hget = .ok (key, cmd) ∧ cacheKey get = .ok (key', cmd') ∧ (key, cmd) ≠ (key', cmd') ∧
      acts = [.opens key' cmd' 10000000000 5000000000,
        .update key' cmd' { typ := 43, bytes := some [118] }, .look key cmd now] ∧
      run (adapterStep mapCache) (newAdapterSystem fun _ => none) acts = some s ∧
      s.log = before ++ [.hit key cmd now v] ∧ ∀ val ch, .updated key cmd val ch ∉ before := by
  intro get hget
  have hlog : (run (adapterStep mapCache) (newAdapterSystem fun _ => none)
      [.opens (lit "k\x04HGET\x04f") (lit "GET") 10000000000 5000000000,
        .update (lit "k\x04HGET\x04f") (lit "GET") { typ := 43, bytes := some [118] },
        .look (lit "k") (lit "\x04HGET\x04fGET") 7000000000]).map AdapterSystem.log =
      some ([.missed (lit "k\x04HGET\x04f") (lit "GET") 10000000000 5000000000,
          .updated (lit "k\x04HGET\x04f") (lit "GET") { typ := 43, bytes := some [118] } (some 0)] ++
        [.hit (lit "k") (lit "\x04HGET\x04fGET") 7000000000
          { typ := 43, bytes := some [118], ttl := 15000 }]) := rfl
  obtain ⟨s, hrun, hlog⟩ := Option.map_eq_some_iff.mp hlog
  refine ⟨lit "k", lit "\x04HGET\x04fGET", lit "k\x04HGET\x04f", lit "GET", _, s, _, 7000000000, _,
    by decide, by decide, by decide, rfl, hrun, hlog, ?_⟩
  intro val ch hmem
  rcases mem_pair.mp hmem with heq | heq
  · cases heq
  · exact absurd (updated.inj heq).1 (by decide)

-- A request is out for the place of an expired value, so `Delete` leaves the value where it is.  A
-- caller whose clock reading is from before the expiry gets it.
example :
    (run (adapterStep mapCache) (newAdapterSystem fun _ => none)
      [.opens [107] [71] 1000000000 5000000000, .update [107] [71] { typ := 43 },
        .opens [107] [71] 1000000000 8000000000, .delete none, .look [107] [71] 5500000000]).map
        (fun s => s.log.drop 3) =
      some [.deleted none, .hit [107] [71] 5500000000 { typ := 43, ttl := 6000 }] := rfl

-- Two flights found nothing.  The second one makes its entry after the value came for the first, so
-- `Delete` passes over a value that has time left.
example :
    (run (adapterStep mapCache) (newAdapterSystem fun _ => none)
      [.look [107] [71] 5000000000, .look [107] [71] 5000000000,
        .opens [107] [71] 1000000000 5000000000, .update [107] [71] { typ := 43 },
        .opens [107] [71] 1000000000 5000000000, .delete none, .look [107] [71] 5500000000]).map
        (fun s => s.log.drop 3) =
      some [.deleted none, .hit [107] [71] 5500000000 { typ := 43, ttl := 6000 }] := rfl

end Rueidis
