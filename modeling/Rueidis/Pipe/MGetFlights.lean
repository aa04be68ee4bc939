import Rueidis.Pipe.Settle

/-!
# The flights of an MGET

`doCacheMGet` rewrites the command to one that asks for the missing keys.  The values are in one
element of the EXEC reply, so whether all keys are settled depends on that element.
-/

namespace Rueidis

open List

section Settle

variable {σ : Type} (store : CacheStore σ) (optIn : Bool) (cache : σ)

/-! ## `DoCache` of an MGET -/

variable {c : Completed} {tag : UInt16} {cmds : List Completed} {served : Served}

structure Rewrites (mgetcc : Bytes) (missing : List Bytes) (rewritten : Completed) : Prop where
  flags : rewritten.cf = mtGetTag
  words : ∃ word path, rewritten.commands = word :: (missing ++ path) ∧
    (word = lit "MGET" ∨ word = lit "JSON.MGET")
  cacheCmd : mgetCacheCmd rewritten = .ok mgetcc
  notPttl : mgetcc ≠ lit "PTTL"

variable {mgetcc : Bytes} {missing keys : List Bytes} {rewritten : Completed} {i p : Nat}
  {m : RedisMessage}

variable (h : Rewrites mgetcc missing rewritten)

include h

theorem Rewrites.plain : isMulti rewritten = false ∧ isExec rewritten = false := by
  obtain ⟨word, path, hwords, hword⟩ := h.words
  constructor
  · refine beq_eq_false_iff_ne.mpr (fun heq => ?_)
    rw [hwords] at heq
    rcases hword with rfl | rfl <;> exact absurd (cons.inj heq).1 (by decide)
  · refine beq_eq_false_iff_ne.mpr (fun heq => ?_)
    rw [hwords] at heq
    rcases hword with rfl | rfl <;> exact absurd (cons.inj heq).1 (by decide)

theorem Rewrites.plain_queued :
    ∀ c ∈ missing.map pttlKeyCmd ++ [rewritten], isMulti c = false ∧ isExec c = false := by
  intro c hc
  rcases mem_append.mp hc with hc | hc
  · obtain ⟨key, -, rfl⟩ := mem_map.mp hc
    exact plain_pttl key
  · rw [mem_singleton.mp hc]
    exact h.plain

theorem Rewrites.isMGet : rewritten.isMGet = true := by
  unfold Completed.isMGet Completed.has
  rw [h.flags]
  decide

theorem Rewrites.mgetCacheKey (hi : i < missing.length) :
    mgetCacheKey rewritten i = .ok missing[i] := by
  obtain ⟨word, path, hwords, -⟩ := h.words
  unfold Rueidis.mgetCacheKey
  rw [show rewritten.cs.s = word :: (missing ++ path) from hwords, getElem?_cons_succ,
    getElem?_append_left hi, getElem?_eq_getElem hi]

omit h

theorem mgetCacheCmd_mget (h : c.commands = lit "MGET" :: keys) :
    mgetCacheCmd c = .ok (lit "GET") := by
  have hlit : lit "MGET" = [77, 71, 69, 84] := by decide
  unfold mgetCacheCmd
  rw [show c.cs.s = lit "MGET" :: keys from h, hlit]
  rfl

theorem mgetCacheCmd_json {path : Bytes} (h : c.commands = lit "JSON.MGET" :: (keys ++ [path])) :
    mgetCacheCmd c = .ok (appendCachePart (lit "JSON.GET") ++ appendCachePart path) := by
  have hlit : lit "JSON.MGET" = [74, 83, 79, 78, 46, 77, 71, 69, 84] := by decide
  unfold mgetCacheCmd
  rw [show c.cs.s = (lit "JSON.MGET" :: keys) ++ [path] from h, getLastD_concat, hlit]
  rfl

theorem jsonCacheCmd_ne_pttl (path : Bytes) :
    appendCachePart (lit "JSON.GET") ++ path ≠ lit "PTTL" := by
  have hjson : appendCachePart (lit "JSON.GET") = [8, 74, 83, 79, 78, 46, 71, 69, 84] := by decide
  have hpttl : lit "PTTL" = [80, 84, 84, 76] := by decide
  rw [hjson, hpttl]
  simp

theorem doCacheMGet_eq (cmd : Cacheable) (hmget : cmd.cmd.isMGet = true) (flown : List Flown)
    (served : Served) (hmissing : missingKeys cmd.cmd flown ≠ []) :
    ∃ mgetcc rewritten, Rewrites mgetcc (missingKeys cmd.cmd flown) rewritten ∧
      rewritten.commands = cmd.cmd.commands.headD [] :: (missingKeys cmd.cmd flown ++
        if isJSONMGet cmd.cmd.commands then [cmd.cmd.commands.getLastD []] else []) ∧
      doCacheMGet store optIn cache cmd.cmd flown served =
        fetchMissing store optIn cache cmd.cmd flown mgetcc rewritten served := by
  rcases cmd.mget hmget with ⟨keys, hwords⟩ | ⟨keys, path, hwords⟩
  · have hjson : isJSONMGet cmd.cmd.commands = false := by
      rw [hwords]
      rfl
    refine ⟨lit "GET", ⟨⟨lit "MGET" :: missingKeys cmd.cmd flown, 0⟩, mtGetTag, 0⟩,
      ⟨rfl, ⟨_, [], by rw [append_nil]; rfl, .inl rfl⟩, mgetCacheCmd_mget rfl, by decide⟩, ?_, ?_⟩
    · rw [hwords]
      simp [Completed.commands, isJSONMGet, show lit "MGET" = [77, 71, 69, 84] by decide]
    unfold doCacheMGet
    dsimp only
    rw [mgetCacheCmd_mget hwords, hjson]
    dsimp only
    rw [if_neg (by simp), if_neg hmissing, if_neg (by simp), append_nil, hwords]
    rfl
  · have hjson : isJSONMGet cmd.cmd.commands = true := by
      rw [hwords]
      rfl
    refine ⟨_, ⟨⟨lit "JSON.MGET" :: (missingKeys cmd.cmd flown ++ [path]), 0⟩, mtGetTag, 0⟩,
      ⟨rfl, ⟨_, [path], rfl, .inr rfl⟩, mgetCacheCmd_json rfl, jsonCacheCmd_ne_pttl _⟩, ?_⟩
    have hlast : cmd.cmd.commands.getLastD [] = path := by
      rw [hwords, ← cons_append, getLastD_concat]
    refine ⟨by rw [hjson, hlast, hwords]; rfl, ?_⟩
    unfold doCacheMGet
    dsimp only
    rw [mgetCacheCmd_json hwords, hjson]
    dsimp only
    rw [if_neg (by simp [hwords]), if_neg hmissing, if_pos rfl, hlast, hwords]
    rfl

theorem mgetCommit_updates (env : Env) (cmd : Completed) (cc : Bytes) (pttls : List RedisMessage)
    {msgs ms : List RedisMessage} {cache : Option σ}
    (h : (mgetCommit store env cmd cc pttls i cache msgs).2.2 = .ok ms) {j : Nat}
    (hj : j < msgs.length) : ∃ ck v, mgetCacheKey cmd (i + j) = .ok ck ∧
      .cacheUpdate ck cc v ∈ (mgetCommit store env cmd cc pttls i cache msgs).2.1 := by
  induction msgs generalizing i cache ms j with
  | nil => cases hj
  | cons m msgs ih =>
    unfold mgetCommit at h ⊢
    cases hkey : mgetCacheKey cmd i with
    | error p => simp [hkey] at h
    | ok ck =>
    cases hpttl : pttls[i]? with
    | none => simp [hkey, hpttl] at h
    | some pttl =>
    cases cache with
    | none => simp [hkey, hpttl] at h
    | some c =>
      rw [hkey, hpttl] at h
      dsimp only at h ⊢
      cases j with
      | zero => exact ⟨ck, _, hkey, mem_cons_self⟩
      | succ j =>
        cases hrest : (mgetCommit store env cmd cc pttls (i + 1)
            (some (store.update c ck cc (cacheCopy env.now pttl.intlen m)).1) msgs).2.2 with
        | error p =>
          rw [hrest] at h
          cases h
        | ok rest =>
          obtain ⟨ck', v, hk, hv⟩ := ih hrest (Nat.lt_of_succ_lt_succ hj)
          rw [show i + 1 + j = i + (j + 1) by omega] at hk
          exact ⟨ck', v, hk, mem_cons_of_mem _ hv⟩

/-! ### The batch of an MGET -/

theorem mgetBatch_eq (keys : List Bytes) (rewritten : Completed) :
    mgetBatch optIn keys rewritten = [pipeOptInCmd optIn] ++
      multiCmd :: ((keys.map pttlKeyCmd ++ [rewritten]) ++ [execCmd]) := by
  simp [mgetBatch]

theorem mgetBatch_length (keys : List Bytes) (rewritten : Completed) :
    (mgetBatch optIn keys rewritten).length = keys.length + 4 := by
  simp [mgetBatch]

theorem pttlKeyCmd_has (htag : readonly &&& tag ≠ tag) (key : Bytes) :
    (pttlKeyCmd key).has tag = false := beq_eq_false_iff_ne.mpr htag

theorem mgetBatch_flags (hopt : (pipeOptInCmd optIn).has tag = false) (hnone : tag ≠ 0)
    (hro : readonly &&& tag ≠ tag) (keys : List Bytes) (hrw : rewritten.has tag = false) :
    ∀ c ∈ mgetBatch optIn keys rewritten, c.has tag = false := by
  intro c hc
  rw [mgetBatch_eq] at hc
  simp only [mem_append, mem_cons, mem_map, not_mem_nil, or_false] at hc
  rcases hc with rfl | rfl | (⟨key, -, rfl⟩ | rfl) | rfl
  · exact hopt
  · exact newCompleted_has hnone _
  · exact pttlKeyCmd_has hro key
  · exact hrw
  · exact newCompleted_has hnone _

theorem mgetBatch_noReply (keys : List Bytes) (hrw : Rewrites mgetcc missing rewritten) :
    ∀ c ∈ mgetBatch optIn keys rewritten, c.noReply = false := by
  refine mgetBatch_flags optIn (optIn_noReply optIn) (by decide) (by decide) keys ?_
  unfold Completed.has
  rw [hrw.flags]
  decide

theorem mgetBatch_isStaticTTL (keys : List Bytes) (hrw : Rewrites mgetcc missing rewritten) :
    ∀ c ∈ mgetBatch optIn keys rewritten, c.isStaticTTL = false := by
  refine mgetBatch_flags optIn ?_ (by decide) (by decide) keys ?_
  · cases optIn <;> decide
  · unfold Completed.has
    rw [hrw.flags]
    decide

theorem mgetBatch_before (keys : List Bytes) (rewritten : Completed) (hp : 4 ≤ p)
    (hpn : p < keys.length + 4) :
    (p < keys.length + 3 ∧ ∃ key, (mgetBatch optIn keys rewritten).getD (p - 1) {} =
      pttlKeyCmd key) ∨
    (p = keys.length + 3 ∧ (mgetBatch optIn keys rewritten).getD (p - 1) {} = rewritten) := by
  obtain ⟨q, rfl⟩ : ∃ q, p = q + 3 := ⟨p - 3, by omega⟩
  have hget : (mgetBatch optIn keys rewritten).getD (q + 3 - 1) {} =
      ((keys.map pttlKeyCmd ++ [rewritten]) ++ [execCmd]).getD q {} := by
    rw [mgetBatch_eq]
    rfl
  rw [hget, getD_eq_getElem?_getD, getElem?_append_left (by simp; omega)]
  by_cases hq : q < keys.length
  · left
    rw [getElem?_append_left (by simpa using hq), getElem?_map,
      getElem?_eq_getElem hq]
    exact ⟨by omega, _, rfl⟩
  · right
    obtain rfl : q = keys.length := by omega
    refine ⟨rfl, ?_⟩
    rw [getElem?_append_right (by simp), length_map, Nat.sub_self]
    rfl

/-- If the caller waits and the EXEC of an MGET is answered by an array, then the last element of
the array has a value for each of the keys. -/
def coversKeys (keys : List Bytes) (served : Served) : Prop :=
  served.waited = true → ∀ env m, served.replies[keys.length + 3]? = some (env, m) →
    m.isArray = true → ∀ k ∈ keys, k ∈ keys.take (m.values.getLastD {}).values.length

theorem commit_mgetBatch (hrw : Rewrites mgetcc missing rewritten) (env : Env) (c : Option σ)
    (hpn : p < keys.length + 4) (m : RedisMessage) :
    commit store env c (mgetBatch optIn keys rewritten) p m =
      if 4 ≤ p ∧ 2 ≤ m.values.length then
        execCommit store env c ((mgetBatch optIn keys rewritten).getD (p - 1) {}) m
      else ⟨c, [], .ok m⟩ := by
  have hget := getElem?_eq_getElem (by rwa [mgetBatch_length optIn keys rewritten])
  have hstatic := mgetBatch_isStaticTTL optIn keys hrw _ (mem_of_getElem? hget)
  have hlead : ((mgetBatch optIn keys rewritten).headD {}).isOptIn = true := optIn_isOptIn optIn
  unfold commit
  rw [hget]
  simp only [hstatic, hlead, and_true, Bool.false_eq_true, and_false, if_false]

theorem mgetBatch_settles (hrw : Rewrites mgetcc keys rewritten) (hpn : p < keys.length + 4)
    {e : Effect} (he : CommitAt (mgetBatch optIn keys rewritten) p m e) {k : Bytes}
    (hk : e.settles (k, mgetcc)) : p = keys.length + 3 ∧ ∃ i < (m.values.getLastD {}).values.length,
      mgetCacheKey rewritten i = .ok k := by
  cases he with
  | staticUpdate hcmd hstatic =>
    rw [mgetBatch_isStaticTTL optIn keys hrw _ (mem_of_getElem? hcmd)] at hstatic
    cases hstatic
  | staticCancel hcmd hstatic =>
    rw [mgetBatch_isStaticTTL optIn keys hrw _ (mem_of_getElem? hcmd)] at hstatic
    cases hstatic
  | exec hff _ hmget hkey =>
    rcases mgetBatch_before optIn keys rewritten hff hpn with ⟨-, key, hbefore⟩ | ⟨-, hbefore⟩
    · -- what is committed for a PTTL has another cache command
      rw [hbefore] at hkey
      cases hkey
      exact absurd (Prod.mk.inj hk).2.symm hrw.notPttl
    · rw [hbefore, hrw.isMGet] at hmget
      cases hmget
  | @mget ck cc i last x v hff _ hmget hcmd hkey hlast hx =>
    rcases mgetBatch_before optIn keys rewritten hff hpn with ⟨-, key, hbefore⟩ | ⟨hp, hbefore⟩
    · rw [hbefore] at hmget
      exact absurd hmget (Bool.eq_false_iff.mp (pttlKeyCmd_has (by decide) key))
    · rw [hbefore] at hkey
      have hck : ck = k := (Prod.mk.inj hk).1
      rw [getLastD_eq_getLast?, hlast, ← hck]
      exact ⟨hp, i, (List.getElem?_eq_some_iff.mp hx).1, hkey⟩

theorem doMulti_aborted {cache : Option σ} (hwaited : served.waited = false) {effs : List Effect}
    {resps : List RedisResult} (h : doMulti store cache cmds served = (effs, .returned resps))
    (hp : p < cmds.length) : (resps.getD p {}).error.isSome = true := by
  unfold doMulti at h
  dsimp only at h
  unfold Served.waited at hwaited
  split at h
  · cases h
  · split at hwaited
    · rename_i err hend
      rw [hend] at h
      cases h
      rw [getD_eq_getElem?_getD, getElem?_replicate, if_pos hp]
      rfl
    · cases hwaited

theorem doMulti_of_read {cache : Option σ} (hwaited : served.waited = true)
    (hread : served.replies.length = cmds.length)
    (hnext : (feed store (dueBatch cache cmds) served.replies).flow = .next) :
    ∃ err, doMulti store cache cmds served =
      ((feed store (dueBatch cache cmds) served.replies).effects, .returned (resultsOf cmds.length
        (feed store (dueBatch cache cmds) served.replies).effects err)) := by
  unfold Served.waited at hwaited
  unfold doMulti
  dsimp only
  rw [hnext]
  match hend : served.ending with
  | .complete => exact ⟨_, if_pos hread⟩
  | .failed err => exact ⟨err, rfl⟩
  | .aborted err =>
    rw [hend] at hwaited
    cases hwaited

section FetchMissing

variable {cmd : Completed} {flown : List Flown} {mgetcc : Bytes} {rewritten : Completed}
  {served : Served} (hrw : Rewrites mgetcc (missingKeys cmd flown) rewritten)
  (hserver : ServerAnswers (mgetBatch optIn (missingKeys cmd flown) rewritten) served.replies)
include hrw hserver

variable {env : Env}

variable (hm : served.replies[(missingKeys cmd flown).length + 3]? = some (env, m))

include hm

theorem exec_values_length (harr : m.isArray = true) :
    m.values.length = (missingKeys cmd flown).length + 1 := by
  rcases hserver.exec [pipeOptInCmd optIn] _ [] (mgetBatch_eq optIn _ rewritten) hrw.plain_queued
    env m (by rw [← hm]; simp; congr 1; omega) with herr | ⟨-, hlen⟩
  · rw [RedisMessage.error_eq_none_of_isArray harr] at herr
    cases herr
  · simpa using hlen

theorem feed_mgetBatch_next (harr : m.isArray = true)
    (hshort : (m.values.getLastD {}).values.length ≤ (missingKeys cmd flown).length) :
    (feed store (dueBatch (some cache) (mgetBatch optIn (missingKeys cmd flown) rewritten))
      served.replies).flow = .next := by
  have hlen := exec_values_length optIn hrw hserver hm harr
  set keys := missingKeys cmd flown with hkeys
  have hblen := mgetBatch_length optIn keys rewritten
  refine (feed_dueBatch store _ (mgetBatch_noReply optIn keys hrw) (some cache) served.replies
    hserver.length_le).calm rfl (fun p env' m' c _ hm' hc => ?_)
  obtain ⟨c, rfl⟩ := Option.isSome_iff_exists.mp hc
  have hpn : p < keys.length + 4 := by
    have := (List.getElem?_eq_some_iff.mp hm').1
    have := hserver.length_le
    omega
  rw [Nat.zero_add, commit_mgetBatch store optIn hrw env' (some c) hpn]
  split
  · rename_i hcommits
    rcases mgetBatch_before optIn keys rewritten hcommits.1 hpn with
      ⟨-, key', hbefore⟩ | ⟨rfl, hbefore⟩
    · rw [hbefore]
      exact execCommit_ok store env' c (pttlKeyCmd_has (by decide) key') rfl hcommits.2
    · rw [hm] at hm'
      cases hm'
      obtain ⟨last, -, hlast, -⟩ := exists_last_two hcommits.2
      rw [getLastD_eq_getLast?, hlast] at hshort
      change last.values.length ≤ keys.length at hshort
      rw [hbefore, (execCommit_mget store env (some c) hrw.isMGet hrw.cacheCmd hcommits.2 hlast).2]
      refine mgetCommit_ok store env rewritten mgetcc m.values c (fun j hj => ?_) (by omega)
      rw [Nat.zero_add]
      exact ⟨_, hrw.mgetCacheKey (Nat.lt_of_lt_of_le hj hshort)⟩
  · exact ⟨m', rfl⟩

omit hm

variable (hne : missingKeys cmd flown ≠ [])
include hne

theorem fetchMissing_settled (hcovers : coversKeys (missingKeys cmd flown) served) :
    (fetchMissing store optIn cache cmd flown mgetcc rewritten served).Settled := by
  set keys := missingKeys cmd flown with hkeys
  have hord := mgetBatch_noReply optIn keys hrw
  unfold fetchMissing
  dsimp only
  rw [← hkeys]
  match h : doMulti store (some cache) (mgetBatch optIn keys rewritten) served with
  | (effs, .panicked p) => simp [CacheCall.Settled]
  | (effs, .waiting) => simp [CacheCall.Settled]
  | (effs, .returned resps) =>
    dsimp only
    split
    · -- the EXEC failed: the caller cancels every key
      rintro _ - k hk
      exact ⟨_, mem_append_right _ (mem_map.mpr ⟨k, hk, rfl⟩), rfl⟩
    · rename_i exec hexec
      have hlast : (mgetBatch optIn keys rewritten).length - 1 =
          [pipeOptInCmd optIn].length + (keys.map pttlKeyCmd ++ [rewritten]).length + 1 := by
        rw [mgetBatch_length]
        simp
        omega
      have hok := error_eq_none_of_toArray hexec
      have hwaited : served.waited = true := by
        by_contra haborted
        have herr := doMulti_aborted store (Bool.eq_false_iff.mpr haborted) h
          (p := (mgetBatch optIn keys rewritten).length - 1) (by rw [mgetBatch_length]; omega)
        rw [hok] at herr
        cases herr
      rw [hlast] at hok
      obtain ⟨env, m, c, m', hm, harr, hlen, hm', heffs, -⟩ := doMulti_exec store hord
        (optIn_isOptIn optIn) hserver h (mgetBatch_eq optIn keys rewritten) (by simp)
        (by simpa using hne) hrw.plain_queued hok
      have hlong : 2 ≤ m.values.length := by
        have := length_pos_of_ne_nil hne
        rw [hlen]
        simp
        omega
      obtain ⟨last, -, hlast', -⟩ := exists_last_two hlong
      have hall := hcovers hwaited env m (by rw [← hm]; simp; congr 1; omega) harr
      rw [getLastD_eq_getLast?, hlast'] at hall
      obtain ⟨heq, hiff⟩ := execCommit_mget store env c hrw.isMGet hrw.cacheCmd hlong hlast'
      obtain ⟨ms, hms⟩ := hiff.mp ⟨m', hm'⟩
      have hsettled : ∀ key ∈ keys, ∃ e ∈ effs, e.settles (key, mgetcc) := by
        intro key hkey
        obtain ⟨j, hj, hget⟩ := mem_take_iff_getElem.mp (hall key hkey)
        obtain ⟨ck, v, hck, hv⟩ := mgetCommit_updates store env rewritten mgetcc m.values hms
          (Nat.lt_of_lt_of_le hj (Nat.min_le_left _ _))
        rw [Nat.zero_add, hrw.mgetCacheKey (Nat.lt_of_lt_of_le hj (Nat.min_le_right _ _)),
          hget] at hck
        cases hck
        rw [← heq] at hv
        exact ⟨_, heffs _ hv, rfl⟩
      have hmissed : ∀ k ∈ keys.map (fun key => (key, mgetcc)), ∃ e ∈ effs, e.settles k := by
        intro k hk
        obtain ⟨key, hkey, rfl⟩ := mem_map.mp hk
        exact hsettled key hkey
      split
      · simp [CacheCall.Settled]
      · split
        · exact fun _ _ => hmissed
        · exact fun _ _ => hmissed

theorem fetchMissing_returned (hwaited : served.waited = true)
    (hm : served.replies[(missingKeys cmd flown).length + 3]? = some (env, m))
    (harr : m.isArray = true)
    (hnext : (feed store (dueBatch (some cache)
      (mgetBatch optIn (missingKeys cmd flown) rewritten)) served.replies).flow = .next) :
    ∃ m' last : RedisMessage, m'.eraseTtl = m.eraseTtl ∧ m'.values.getLast? = some last ∧
      fetchMissing store optIn cache cmd flown mgetcc rewritten served =
        ⟨(missingKeys cmd flown).map fun key => (key, mgetcc),
          mgetBatch optIn (missingKeys cmd flown) rewritten,
          (feed store (dueBatch (some cache) (mgetBatch optIn (missingKeys cmd flown) rewritten))
            served.replies).effects,
          .returned (if rewritten.commands.length = cmd.commands.length then newResult last none
            else mgetResult flown last.values false)⟩ := by
  have hlen := exec_values_length optIn hrw hserver hm harr
  set keys := missingKeys cmd flown with hkeys
  set batch := mgetBatch optIn keys rewritten with hbatch
  have hpos := length_pos_of_ne_nil hne
  have hblen : batch.length = keys.length + 4 := mgetBatch_length optIn keys rewritten
  have hread : served.replies.length = batch.length := by
    have := (List.getElem?_eq_some_iff.mp hm).1
    have := hserver.length_le
    omega
  have hspec := feed_dueBatch store batch (mgetBatch_noReply optIn keys hrw) (some cache)
    served.replies hserver.length_le
  obtain ⟨err, hdo⟩ := doMulti_of_read store hwaited hread hnext
  obtain ⟨c, m', hm', -, hres⟩ := hspec.reply hnext _ env m (by omega) hm
  rw [Nat.zero_add] at hm' hres
  -- what the caller reads is the EXEC reply up to expiry stamps
  have herase := (commit_spec store env c batch (keys.length + 3) m).reply m' hm'
  have harr' : m'.isArray = true := by
    have htyp : m'.typ = m.typ := by rw [← eraseTtl_typ m', herase, eraseTtl_typ]
    unfold RedisMessage.isArray
    rw [htyp]
    exact harr
  have hlong : 2 ≤ m'.values.length := by
    rw [values_length_of_eraseTtl herase]
    omega
  obtain ⟨last, -, hlast, -⟩ := exists_last_two hlong
  have hresp : ((resultsOf batch.length (feed store (dueBatch (some cache) batch)
      served.replies).effects err).getD (batch.length - 1) {}).toArray = .ok m'.values := by
    rw [resultsOf_getD (by omega), show batch.length - 1 = keys.length + 3 by omega, hres]
    exact RedisMessage.toArray_of_isArray harr'
  unfold fetchMissing
  dsimp only
  rw [← hkeys, ← hbatch, hdo]
  dsimp only
  rw [hresp]
  dsimp only
  rw [hlast]
  refine ⟨m', last, herase, hlast, ?_⟩
  dsimp only
  split <;> rfl

theorem coversKeys_of_settled
    (hsettled : (fetchMissing store optIn cache cmd flown mgetcc rewritten served).Settled) :
    coversKeys (missingKeys cmd flown) served := by
  intro hwaited env m hm harr key hkey
  by_contra hnot
  have hshort : (m.values.getLastD {}).values.length < (missingKeys cmd flown).length := by
    by_contra hlong
    rw [take_of_length_le (by omega)] at hnot
    exact hnot hkey
  have hnext := feed_mgetBatch_next store optIn cache hrw hserver hm harr (by omega)
  obtain ⟨_, _, -, -, hfetch⟩ :=
    fetchMissing_returned store optIn cache hrw hserver hne hwaited hm harr hnext
  have hspec := feed_dueBatch store _ (mgetBatch_noReply optIn _ hrw) (some cache) served.replies
    hserver.length_le
  rw [hfetch] at hsettled
  obtain ⟨e, he, hsettles⟩ := hsettled _ rfl (key, mgetcc) (mem_map.mpr ⟨key, hkey, rfl⟩)
  have hcommits : e.commits = true := by
    cases e <;> first | rfl | cases hsettles
  -- what settled the key came from one of the replies, so from a value of the EXEC reply
  obtain ⟨p, env', m₁, c, -, hm₁, he'⟩ := hspec.origin e he hcommits
  rw [Nat.zero_add] at he'
  have hpn : p < (missingKeys cmd flown).length + 4 := by
    rw [← mgetBatch_length optIn _ rewritten]
    exact Nat.lt_of_lt_of_le (List.getElem?_eq_some_iff.mp hm₁).1 hserver.length_le
  obtain ⟨rfl, i, hi, hik⟩ := mgetBatch_settles optIn hrw hpn
    ((commit_spec store env' c _ p m₁).own e he') hsettles
  rw [hm] at hm₁
  cases hm₁
  rw [hrw.mgetCacheKey (Nat.lt_trans hi hshort)] at hik
  cases hik
  exact hnot (mem_take_iff_getElem.mpr ⟨i, by omega, rfl⟩)

end FetchMissing

end Settle

end Rueidis
