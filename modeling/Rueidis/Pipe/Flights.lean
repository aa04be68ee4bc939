import Rueidis.Library.Strides
import Rueidis.Pipe.MGetFlights

/-!
# Every opened flight is settled

The cached calls put together: `DoCache`, with the one case in which it leaves a flight open, and
`DoMultiCache`.
-/

namespace Rueidis

open List

section Settle

variable {σ : Type} (store : CacheStore σ) (optIn : Bool) (cache : σ)

/-! ## `DoMultiCache` -/

variable {missing : List Missing} {m : Missing}

theorem missingOf_mem {multi : List (Completed × Flown)} (h : missingOf multi = .ok missing)
    (hm : m ∈ missing) : cacheKey m.cmd = .ok (m.ck, m.cc) ∧ ∃ f, (m.cmd, f) ∈ multi := by
  induction multi generalizing missing with
  | nil =>
    cases h
    cases hm
  | cons q multi ih =>
    obtain ⟨cmd, f⟩ := q
    unfold missingOf at h
    match hkey : cacheKey cmd, hrest : missingOf multi with
    | .error p, _ => simp [hkey] at h
    | .ok _, .error p => simp [hkey, hrest] at h
    | .ok (ck, cc), .ok ms =>
      rw [hkey, hrest] at h
      cases h
      have hlater : m ∈ ms → cacheKey m.cmd = .ok (m.ck, m.cc) ∧
          ∃ f', (m.cmd, f') ∈ (cmd, f) :: multi := fun hm => by
        obtain ⟨hk, f', hf'⟩ := ih hrest hm
        exact ⟨hk, f', mem_cons_of_mem _ hf'⟩
      split at hm
      · rcases mem_cons.mp hm with rfl | hm
        · exact ⟨hkey, f, mem_cons_self⟩
        · exact hlater hm
      · exact hlater hm

theorem strides_length (skipMultiExec : Bool) (missing : List Missing) :
    (strides optIn skipMultiExec missing).length =
      (if skipMultiExec then 2 else 5) * missing.length := by
  refine Strides.length_flatMap (fun m _ => ?_)
  cases skipMultiExec <;> rfl

theorem strides_split (skipMultiExec : Bool) {j : Nat} (hj : missing[j]? = some m) :
    ∃ front rest, strides optIn skipMultiExec missing =
        front ++ (strideOf optIn skipMultiExec m.ck m.cmd ++ rest) ∧
      front.length = (if skipMultiExec then 2 else 5) * j := by
  obtain ⟨hlt, hget⟩ := List.getElem?_eq_some_iff.mp hj
  refine ⟨strides optIn skipMultiExec (missing.take j),
    strides optIn skipMultiExec (missing.drop (j + 1)), ?_, ?_⟩
  · have hsplit : missing = missing.take j ++ m :: missing.drop (j + 1) := by
      rw [← hget, List.getElem_cons_drop, List.take_append_drop]
    unfold strides
    conv_lhs => rw [hsplit]
    rw [List.flatMap_append, List.flatMap_cons]
  · rw [strides_length, List.length_take_of_le (Nat.le_of_lt hlt)]

structure Asked (skipMultiExec : Bool) (m : Missing) : Prop where
  key : cacheKey m.cmd = .ok (m.ck, m.cc)
  replies : m.cmd.noReply = false
  plain : isMulti m.cmd = false ∧ isExec m.cmd = false
  mget : m.cmd.isMGet = false
  static : skipMultiExec = true → m.cmd.isStaticTTL = true

section Strides

variable {skipMultiExec : Bool} {missing : List Missing}
  (hasked : ∀ m ∈ missing, Asked skipMultiExec m)
include hasked

theorem strides_noReply : ∀ c ∈ strides optIn skipMultiExec missing, c.noReply = false := by
  intro c hc
  obtain ⟨m, hm, hc⟩ := mem_flatMap.mp hc
  have hflagless : ∀ ss, (newCompleted ss).noReply = false := newCompleted_has (by decide)
  have hcleared : m.cmd.clearStaticTTL.noReply = false := by
    rw [← (hasked m hm).replies]
    exact has_clearStaticTTL (by decide) m.cmd
  unfold strideOf at hc
  split at hc
  · simp only [mem_cons, not_mem_nil, or_false] at hc
    rcases hc with rfl | rfl
    · exact optIn_noReply optIn
    · exact (hasked m hm).replies
  · simp only [mem_cons, not_mem_nil, or_false] at hc
    rcases hc with rfl | rfl | rfl | rfl | rfl
    · exact optIn_noReply optIn
    · exact hflagless _
    · exact hflagless _
    · exact hcleared
    · exact hflagless _

theorem stride_settled {served : Served}
    (hserver : ServerAnswers (strides optIn skipMultiExec missing) served.replies)
    {effs : List Effect} {resps : List RedisResult}
    (h : doMulti store (some cache) (strides optIn skipMultiExec missing) served =
      (effs, .returned resps)) {j : Nat} (hj : missing[j]? = some m) :
    ∃ e ∈ effs ++ cancelFailed skipMultiExec resps j m, e.settles (m.ck, m.cc) := by
  have hm := hasked m (mem_of_getElem? hj)
  have hord := strides_noReply optIn hasked
  obtain ⟨front, rest, hsplit, hfront⟩ := strides_split optIn skipMultiExec hj
  unfold cancelFailed
  cases skipMultiExec with
  | true =>
    rw [if_pos rfl] at hfront ⊢
    match hresp : (resps.getD (2 * j + 1) {}).err with
    | some err => exact ⟨_, mem_append_right _ (mem_singleton.mpr rfl), rfl⟩
    | none =>
      have hcmd : (strides optIn true missing)[2 * j + 1]? = some m.cmd := by
        rw [hsplit, ← hfront, getElem?_append_right (by omega), Nat.add_sub_cancel_left]
        rfl
      obtain ⟨e, he, hsettles⟩ := doMulti_static store hord hserver.length_le h (by omega)
        hcmd (hm.static rfl) hm.key hresp
      exact ⟨e, mem_append_left _ he, hsettles⟩
  | false =>
    rw [if_neg (by decide)] at hfront ⊢
    match hresp : (resps.getD (5 * j + 4) {}).error with
    | some err => exact ⟨_, mem_append_right _ (mem_singleton.mpr rfl), rfl⟩
    | none =>
      have hlead : ((strides optIn false missing).headD {}).isOptIn = true := by
        obtain ⟨m₀, ms, rfl⟩ : ∃ m₀ ms, missing = m₀ :: ms :=
          exists_cons_of_ne_nil (ne_nil_of_mem (mem_of_getElem? hj))
        exact optIn_isOptIn optIn
      have hcmds : strides optIn false missing = (front ++ [pipeOptInCmd optIn]) ++
          multiCmd :: (([pttlCmd m.ck] ++ [m.cmd.clearStaticTTL]) ++ execCmd :: rest) := by
        rw [hsplit]
        simp [strideOf]
      have hpos : (front ++ [pipeOptInCmd optIn]).length +
          ([pttlCmd m.ck] ++ [m.cmd.clearStaticTTL]).length + 1 = 5 * j + 4 := by
        simp [hfront]
      have hplain : isMulti m.cmd.clearStaticTTL = false ∧
          isExec m.cmd.clearStaticTTL = false := hm.plain
      rw [← hpos] at hresp
      obtain ⟨env, x, c, x', -, -, -, hx', heffs, -⟩ := doMulti_exec store hord hlead hserver h
        hcmds (by simp) (by simp) (by simp [plain_pttl, hplain]) hresp
      have hmget : m.cmd.clearStaticTTL.isMGet = false := by
        rw [← hm.mget]
        exact has_clearStaticTTL (by decide) m.cmd
      obtain ⟨e, he, hsettles⟩ := execCommit_settles store env hmget
        ((cacheKey_clearStaticTTL m.cmd).trans hm.key) hx'
      exact ⟨e, mem_append_left _ (heffs e he), hsettles⟩

end Strides

theorem asked_of_missingOf {multi : List (Cacheable × Flown)}
    (h : missingOf (multi.map fun q => (q.1.cmd, q.2)) = .ok missing)
    (hmget : ¬ (multi.map fun q => (q.1.cmd, q.2)).any (·.1.isMGet) = true) :
    ∀ m ∈ missing, Asked ((multi.map fun q => (q.1.cmd, q.2)).all (·.1.isStaticTTL)) m := by
  intro m hm
  obtain ⟨hkey, f, hmem⟩ := missingOf_mem h hm
  obtain ⟨q, -, hq⟩ := mem_map.mp hmem
  have hcmd : q.1.cmd = m.cmd := (Prod.mk.inj hq).1
  refine ⟨hkey, ?_, ?_, ?_, ?_⟩
  · exact hcmd ▸ q.1.replies
  · exact hcmd ▸ ⟨q.1.notMulti, q.1.notExec⟩
  · rw [any_eq_true] at hmget
    by_contra hm'
    exact hmget ⟨_, hmem, by simpa using hm'⟩
  · intro hall
    exact all_eq_true.mp hall _ hmem

theorem doMultiCache_settled (multi : List (Cacheable × Flown)) (served : Served)
    (hserver : ServerAnswers (doMultiCache store optIn cache
      (multi.map fun q => (q.1.cmd, q.2)) served).sent served.replies) :
    (doMultiCache store optIn cache (multi.map fun q => (q.1.cmd, q.2)) served).Settled := by
  set cmds := multi.map fun q => (q.1.cmd, q.2) with hcmds
  unfold doMultiCache at hserver ⊢
  by_cases hempty : cmds = []
  · rw [if_pos hempty]
    simp [CacheCall.Settled]
  by_cases hmget : cmds.any (·.1.isMGet) = true
  · rw [if_neg hempty, if_pos hmget]
    simp [CacheCall.Settled]
  rw [if_neg hempty, if_neg hmget] at hserver ⊢
  cases hmissing : missingOf cmds with
  | error p => simp [CacheCall.Settled]
  | ok missing =>
    rw [hmissing] at hserver
    dsimp only at hserver ⊢
    set skipMultiExec := cmds.all (·.1.isStaticTTL) with hskip
    by_cases hnone : missing = []
    · rw [if_pos hnone]
      simp [CacheCall.Settled]
    rw [if_neg hnone] at hserver ⊢
    have hasked : ∀ m ∈ missing, Asked skipMultiExec m := asked_of_missingOf hmissing hmget
    rcases h : doMulti store (some cache) (strides optIn skipMultiExec missing) served with
      ⟨effs, ret⟩
    cases ret with
    | panicked p => simp [CacheCall.Settled]
    | waiting => simp [CacheCall.Settled]
    | returned resps =>
      have hserver' : ServerAnswers (strides optIn skipMultiExec missing) served.replies := by
        rw [h] at hserver
        dsimp only at hserver
        split at hserver
        · exact hserver
        · exact hserver
      have hmissed : ∀ k ∈ missing.map (fun m => (m.ck, m.cc)), ∃ e ∈ effs ++
          missing.zipIdx.flatMap (fun p => cancelFailed skipMultiExec resps p.2 p.1),
            e.settles k := by
        intro k hk
        obtain ⟨m, hm, rfl⟩ := mem_map.mp hk
        obtain ⟨j, hj⟩ := mem_iff_getElem?.mp hm
        obtain ⟨e, he, hsettles⟩ := stride_settled store optIn cache hasked hserver' h hj
        rcases mem_append.mp he with he | he
        · exact ⟨e, mem_append_left _ he, hsettles⟩
        · refine ⟨e, mem_append_right _ (mem_flatMap.mpr ⟨(m, j), ?_, he⟩), hsettles⟩
          rw [mk_mem_zipIdx_iff_getElem?]
          exact hj
      dsimp only
      split
      · simp [CacheCall.Settled]
      · exact fun _ _ => hmissed

/-! ## The calls -/

theorem fetchMissing_sent (cmd : Completed) (flown : List Flown) (mgetcc : Bytes)
    (rewritten : Completed) (served : Served) :
    (fetchMissing store optIn cache cmd flown mgetcc rewritten served).sent =
      mgetBatch optIn (missingKeys cmd flown) rewritten := by
  unfold fetchMissing
  dsimp only
  split
  · rfl
  · rfl
  · split
    · rfl
    · split
      · rfl
      · split <;> rfl

theorem doCacheMGet_settled_iff (cmd : Cacheable) (hmget : cmd.cmd.isMGet = true)
    (flown : List Flown) (served : Served)
    (hserver : ServerAnswers (doCacheMGet store optIn cache cmd.cmd flown served).sent
      served.replies) :
    (doCacheMGet store optIn cache cmd.cmd flown served).Settled ↔
      coversKeys (missingKeys cmd.cmd flown) served := by
  by_cases hne : missingKeys cmd.cmd flown = []
  · -- no flight was opened
    have hmissed : (doCacheMGet store optIn cache cmd.cmd flown served).missed = [] := by
      unfold doCacheMGet
      dsimp only
      split
      · rfl
      · split
        · rfl
        · rfl
    constructor
    · intro _ _ env m _ _ key hkey
      rw [hne] at hkey
      cases hkey
    · intro _ a _ k hk
      rw [hmissed] at hk
      cases hk
  · obtain ⟨mgetcc, rewritten, hrw, -, heq⟩ :=
      doCacheMGet_eq store optIn cache cmd hmget flown served hne
    rw [heq, fetchMissing_sent] at hserver
    rw [heq]
    exact ⟨coversKeys_of_settled store optIn cache hrw hserver hne,
      fetchMissing_settled store optIn cache hrw hserver hne⟩

theorem doCacheStatic_sent (cmd : Completed) (ck cc : Bytes) (served : Served) :
    (doCacheStatic store optIn cache cmd ck cc served).sent = [pipeOptInCmd optIn, cmd] := by
  unfold doCacheStatic
  dsimp only
  split
  · rfl
  · rfl
  · split <;> rfl

theorem doCacheExec_sent (cmd : Completed) (ck cc : Bytes) (served : Served) :
    (doCacheExec store optIn cache cmd ck cc served).sent =
      [pipeOptInCmd optIn, multiCmd, pttlCmd ck, cmd, execCmd] := by
  unfold doCacheExec
  dsimp only
  split
  · rfl
  · rfl
  · split
    · rfl
    · split <;> rfl

theorem doCacheOne_settled (cmd : Cacheable) (hmget : cmd.cmd.isMGet = false) (flown : Flown)
    (served : Served)
    (hserver : ServerAnswers (doCacheOne store optIn cache cmd.cmd flown served).sent
      served.replies) : (doCacheOne store optIn cache cmd.cmd flown served).Settled := by
  unfold doCacheOne at hserver ⊢
  cases hkey : cacheKey cmd.cmd with
  | error p => simp [CacheCall.Settled]
  | ok key =>
    rw [hkey] at hserver
    dsimp only at hserver ⊢
    by_cases hhit : flown.hit = true
    · rw [if_pos hhit]
      simp [CacheCall.Settled]
    rw [if_neg hhit] at hserver ⊢
    cases hentry : flown.entry with
    | some entry => simp [CacheCall.Settled]
    | none =>
      rw [hentry] at hserver
      by_cases hstatic : cmd.cmd.isStaticTTL = true
      · rw [if_pos hstatic, doCacheStatic_sent] at hserver
        rw [if_pos hstatic]
        exact doCacheStatic_settled store optIn cache cmd hstatic hkey served hserver.length_le
      · rw [if_neg hstatic, doCacheExec_sent] at hserver
        rw [if_neg hstatic]
        exact doCacheExec_settled store optIn cache cmd hmget hkey served hserver

/-- A cached call that has returned has left no flight open, except for an MGET whose EXEC reply has
no value for one of the missing keys, as when the MGET itself was answered by an error. -/
theorem cached_calls_settled_iff :
    (∀ (cmd : Cacheable) (flown : List Flown) (served : Served),
      ServerAnswers (doCache store optIn cache cmd.cmd flown served).sent served.replies →
      ((doCache store optIn cache cmd.cmd flown served).Settled ↔
        (cmd.cmd.isMGet = true → coversKeys (missingKeys cmd.cmd flown) served))) ∧
    (∀ (multi : List (Cacheable × Flown)) (served : Served),
      ServerAnswers (doMultiCache store optIn cache (multi.map fun q => (q.1.cmd, q.2)) served).sent
        served.replies →
      (doMultiCache store optIn cache (multi.map fun q => (q.1.cmd, q.2)) served).Settled) := by
  refine ⟨fun cmd flown served hserver => ?_, doMultiCache_settled store optIn cache⟩
  unfold doCache at hserver ⊢
  by_cases hmget : cmd.cmd.isMGet = true
  · rw [if_pos hmget] at hserver ⊢
    rw [doCacheMGet_settled_iff store optIn cache cmd hmget flown served hserver]
    exact ⟨fun h _ => h, fun h => h hmget⟩
  · rw [if_neg hmget] at hserver ⊢
    have hsettled := doCacheOne_settled store optIn cache cmd (Bool.eq_false_iff.mpr hmget)
      (flown.headD {}) served hserver
    exact ⟨fun _ h => absurd h hmget, fun _ => hsettled⟩

end Settle

theorem ServerAnswers.of_transaction {optIn : Completed} {queued : List Completed}
    (hopt : isMulti optIn = false ∧ isExec optIn = false)
    (hqueued : ∀ c ∈ queued, isMulti c = false ∧ isExec c = false)
    {replies : List (Env × RedisMessage)} (hlen : replies.length ≤ queued.length + 3)
    (hexec : ∀ env m, replies[queued.length + 2]? = some (env, m) →
      m.error.isSome = true ∨ (m.isArray = true ∧ m.values.length = queued.length)) :
    ServerAnswers (optIn :: multiCmd :: (queued ++ [execCmd])) replies := by
  refine ⟨by simpa using hlen, fun front queued' rest hcmds hqueued' => ?_⟩
  have hmulti : isMulti multiCmd = true := by decide
  have hisExec : isExec execCmd = true := by decide
  match front with
  | [] =>
    rw [(cons.inj hcmds).1, hmulti] at hopt
    cases hopt.1
  | f :: g :: front =>
    -- the transaction has no second MULTI
    have htail : queued ++ [execCmd] = front ++ multiCmd :: (queued' ++ execCmd :: rest) :=
      (cons.inj (cons.inj hcmds).2).2
    have hmem : multiCmd ∈ queued ++ [execCmd] := by simp [htail]
    rcases mem_append.mp hmem with hmem | hmem
    · rw [(hqueued _ hmem).1] at hmulti
      cases hmulti
    · exact absurd (mem_singleton.mp hmem) (by decide)
  | [f] =>
    have htail : queued ++ [execCmd] = queued' ++ execCmd :: rest :=
      (cons.inj (cons.inj hcmds).2).2
    have hsame : queued'.length = queued.length := by
      -- the first EXEC of both sides is at the end of what is queued
      rcases Nat.lt_trichotomy queued'.length queued.length with hlt | heq | hgt
      · have hget : queued[queued'.length]? = some execCmd := by
          rw [← getElem?_append_left hlt, htail, getElem?_append_right (Nat.le_refl _),
            Nat.sub_self]
          rfl
        rw [(hqueued _ (mem_of_getElem? hget)).2] at hisExec
        cases hisExec
      · exact heq
      · have hget : queued'[queued.length]? = some execCmd := by
          rw [← getElem?_append_left hgt, ← htail,
            getElem?_append_right (Nat.le_refl _), Nat.sub_self]
          rfl
        rw [(hqueued' _ (mem_of_getElem? hget)).2] at hisExec
        cases hisExec
    intro env m hm
    rw [hsame]
    refine hexec env m ?_
    rw [← hm, hsame]
    congr 1
    simp
    omega

def getK : Cacheable :=
  ⟨{ cs := { s := [lit "GET", lit "k"] }, cf := readonly }, by decide, by decide, by decide,
    fun h => absurd h (by decide)⟩

def mgetK : Cacheable :=
  ⟨{ cs := { s := [lit "MGET", lit "k"] }, cf := mtGetTag }, by decide, by decide, by decide,
    fun _ => .inl ⟨[lit "k"], rfl⟩⟩

/-- The replies to a cached command: QUEUED twice, and the EXEC reply with a PTTL and `last`. -/
def cachedReplies (last : RedisMessage) : Served where
  replies := [{ typ := typeSimpleString }, { typ := typeSimpleString }, { typ := typeSimpleString },
    { typ := typeSimpleString },
    RedisMessage.setValues { typ := typeArray } [{ typ := typeInteger, intlen := 1000 }, last]].map
      fun m => ({}, m)
  ending := .complete

theorem cachedReplies_answers {pttl cmd : Completed}
    (hpttl : isMulti pttl = false ∧ isExec pttl = false)
    (hcmd : isMulti cmd = false ∧ isExec cmd = false) (last : RedisMessage) :
    ServerAnswers [pipeOptInCmd true, multiCmd, pttl, cmd, execCmd] (cachedReplies last).replies := by
  have hqueued : ∀ c ∈ [pttl, cmd], isMulti c = false ∧ isExec c = false := by
    simp [hpttl, hcmd]
  refine ServerAnswers.of_transaction (by decide) hqueued (by simp [cachedReplies]) ?_
  rintro env m hm
  cases hm
  exact .inr ⟨rfl, rfl⟩

theorem cached_calls_settled_iff_value :
    (doCache keyStore true [] getK.cmd [{}] (cachedReplies { typ := typeBlobString })).Settled ∧
    (doCache keyStore true [] mgetK.cmd [{}] (cachedReplies (RedisMessage.setValues
      { typ := typeArray } [{ typ := typeBlobString }]))).Settled ∧
    (doMultiCache keyStore true [] ([(getK, {})].map fun q => (q.1.cmd, q.2))
      (cachedReplies { typ := typeBlobString })).Settled := by
  have hget : isMulti getK.cmd = false ∧ isExec getK.cmd = false := by decide
  have hmget : isMulti mgetK.cmd = false ∧ isExec mgetK.cmd = false := by decide
  have hpttl : isMulti (pttlKeyCmd (lit "k")) = false ∧ isExec (pttlKeyCmd (lit "k")) = false := by
    decide
  refine ⟨?_, ?_, ?_⟩
  · refine ((cached_calls_settled_iff keyStore true []).1 getK _ _ ?_).mpr
      (fun h => absurd h (by decide))
    exact cachedReplies_answers (plain_pttl (lit "k")) hget _
  · refine ((cached_calls_settled_iff keyStore true []).1 mgetK _ _ ?_).mpr (fun _ _ env m hm _ => ?_)
    · exact cachedReplies_answers hpttl hmget _
    · cases hm
      decide
  · refine (cached_calls_settled_iff keyStore true []).2 [(getK, {})] _ ?_
    exact cachedReplies_answers (plain_pttl (lit "k")) hget _

/-- An error in the place of the values leaves the flight of `MGET k` open: the call returns, and
nothing has settled the key. -/
theorem mget_error_leaves_flight_open :
    ServerAnswers (doCache keyStore true [] mgetK.cmd [{}]
      (cachedReplies { typ := typeSimpleErr })).sent (cachedReplies { typ := typeSimpleErr }).replies ∧
    ¬ (doCache keyStore true [] mgetK.cmd [{}] (cachedReplies { typ := typeSimpleErr })).Settled := by
  have hmget : isMulti mgetK.cmd = false ∧ isExec mgetK.cmd = false := by decide
  have hpttl : isMulti (pttlKeyCmd (lit "k")) = false ∧ isExec (pttlKeyCmd (lit "k")) = false := by
    decide
  refine ⟨cachedReplies_answers hpttl hmget _, fun hsettled => ?_⟩
  have hsettles := hsettled (newResult { typ := typeSimpleErr } none) rfl (lit "k", lit "GET")
    (by decide)
  exact absurd hsettles (by decide)

end Rueidis
