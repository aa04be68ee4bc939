import Rueidis.Pipe.Reachable

/-!
# What reaches the client side cache

The read loop commits replies of client side caching batches to the cache store.
-/

namespace Rueidis

open List

/-! ## Replies up to expiry stamps -/

mutual

def RedisMessage.eraseTtl : RedisMessage → RedisMessage
  | ⟨attrs, bytes, array, intlen, typ, _⟩ => ⟨attrs, bytes, eraseArray array, intlen, typ, 0⟩
termination_by structural m => m

def eraseArray : Option (List RedisMessage) → Option (List RedisMessage)
  | none => none
  | some vs => some (eraseElems vs)
termination_by structural vs => vs

def eraseElems : List RedisMessage → List RedisMessage
  | [] => []
  | v :: vs => v.eraseTtl :: eraseElems vs
termination_by structural vs => vs

end

variable {last : RedisMessage} {ff : Nat} {e : Effect} {vs : List RedisMessage}
  {multi : List Completed}

theorem setExpireAt_eraseTtl (m : RedisMessage) (pxat : Int64) :
    (m.setExpireAt pxat).eraseTtl = m.eraseTtl := by
  cases m
  rfl

theorem eraseElems_append (xs ys : List RedisMessage) :
    eraseElems (xs ++ ys) = eraseElems xs ++ eraseElems ys := by
  induction xs with
  | nil => rfl
  | cons x xs ih => rw [cons_append, eraseElems, ih, eraseElems, cons_append]

variable {m : RedisMessage}

theorem eraseTtl_of_array {vs' : List RedisMessage} (hm : m.array = some vs)
    (h : eraseElems vs' = eraseElems vs) : { m with array := some vs' }.eraseTtl = m.eraseTtl := by
  obtain ⟨attrs, bytes, array, intlen, typ, ttl⟩ := m
  subst hm
  simp only [RedisMessage.eraseTtl, eraseArray, h]

theorem eraseTtl_map_array (h : eraseElems vs = eraseElems m.values) :
    { m with array := m.array.map fun _ => vs }.eraseTtl = m.eraseTtl := by
  obtain ⟨attrs, bytes, array, intlen, typ, ttl⟩ := m
  cases array with
  | none => rfl
  | some xs => exact eraseTtl_of_array rfl h

theorem eraseTtl_of_last {last' : RedisMessage} {front : List RedisMessage}
    (hm : m.array = some (front ++ [last])) (h : last'.eraseTtl = last.eraseTtl) :
    { m with array := some (front ++ [last']) }.eraseTtl = m.eraseTtl := by
  refine eraseTtl_of_array hm ?_
  rw [eraseElems_append, eraseElems_append, eraseElems, eraseElems, h]
  rfl

/-! ## Commits -/

/-- `v` is the reply `x` with the cache mark and some expiry. -/
def CachedCopy (v x : RedisMessage) : Prop := v = { x with attrs := some cacheMark, ttl := v.ttl }

/-- The commit `e` takes its key from the due command and its value from the reply `m` itself for a
static TTL, else its key from the command in front and its value from the last element of `m`. -/
inductive CommitAt (multi : List Completed) (ff : Nat) (m : RedisMessage) : Effect → Prop where
  | staticUpdate {cmd : Completed} {ck cc : Bytes} (hcmd : multi[ff]? = some cmd)
      (hstatic : cmd.isStaticTTL = true) (hkey : cacheKey cmd = .ok (ck, cc)) :
      CommitAt multi ff m (.cacheUpdate ck cc { m with attrs := some cacheMark })
  | staticCancel {cmd : Completed} {ck cc : Bytes} {err : Err} (hcmd : multi[ff]? = some cmd)
      (hstatic : cmd.isStaticTTL = true) (hkey : cacheKey cmd = .ok (ck, cc))
      (herr : m.error = some err) :
      CommitAt multi ff m (.cacheCancel ck cc err)
  | exec {ck cc : Bytes} {last v : RedisMessage} (hff : 4 ≤ ff) (hlen : 2 ≤ m.values.length)
      (hmget : (multi.getD (ff - 1) {}).isMGet = false)
      (hkey : cacheKey (multi.getD (ff - 1) {}) = .ok (ck, cc))
      (hlast : m.values.getLast? = some last) (hv : CachedCopy v last) :
      CommitAt multi ff m (.cacheUpdate ck cc v)
  | mget {ck cc : Bytes} {i : Nat} {last x v : RedisMessage} (hff : 4 ≤ ff) (hlen : 2 ≤ m.values.length)
      (hmget : (multi.getD (ff - 1) {}).isMGet = true)
      (hcmd : mgetCacheCmd (multi.getD (ff - 1) {}) = .ok cc)
      (hkey : mgetCacheKey (multi.getD (ff - 1) {}) i = .ok ck)
      (hlast : m.values.getLast? = some last) (hx : last.values[i]? = some x)
      (hv : CachedCopy v x) :
      CommitAt multi ff m (.cacheUpdate ck cc v)

/-- A commit for a command from its own reply: that of a static TTL, or that of the EXEC behind
it. -/
def CommitOf (multi : List Completed) (ff : Nat) (m : RedisMessage) (e : Effect) : Prop :=
  CommitAt multi ff m e ∧
    ((multi.getD ff {}).isStaticTTL = true ∨ isExec (multi.getD ff {}) = true)

/-- A reply of two values or more that is not for a static TTL is the one of the EXEC. -/
def execDue (multi : List Completed) (ff : Nat) (values : List RedisMessage) : Bool :=
  (multi.getD ff {}).isStaticTTL || isExec (multi.getD ff {}) || decide (values.length < 2)

theorem CommitAt.commitOf (h : CommitAt multi ff m e) (hdue : execDue multi ff m.values = true) :
    CommitOf multi ff m e := by
  refine ⟨h, ?_⟩
  simp only [execDue, Bool.or_eq_true, decide_eq_true_eq] at hdue
  cases h with
  | staticUpdate hcmd hstatic => exact .inl (by simpa [hcmd] using hstatic)
  | staticCancel hcmd hstatic => exact .inl (by simpa [hcmd] using hstatic)
  | exec hff hlen => exact hdue.resolve_right (by omega)
  | mget hff hlen => exact hdue.resolve_right (by omega)

theorem cacheCopy_cachedCopy (now : Int) (pttl : Int64) (m : RedisMessage) :
    CachedCopy (cacheCopy now pttl m) m := by
  unfold CachedCopy cacheCopy
  split <;> rfl

section Commit

variable {σ : Type} (store : CacheStore σ) (env : Env)

variable {cmd : Completed}

structure CommitSpec (cache : Option σ) (multi : List Completed) (ff : Nat) (msg : RedisMessage)
    (c : Committed σ) : Prop where
  replay : c.cache = replay store cache c.effects
  own : ∀ e ∈ c.effects, CommitAt multi ff msg e
  reply : ∀ m, c.msg = .ok m → m.eraseTtl = msg.eraseTtl

theorem CommitSpec.nothing {store : CacheStore σ} (cache : Option σ) (multi : List Completed)
    (ff : Nat) (msg : RedisMessage) {o : Except Panic RedisMessage}
    (ho : ∀ m, o = .ok m → m.eraseTtl = msg.eraseTtl) :
    CommitSpec store cache multi ff msg ⟨cache, [], o⟩ :=
  ⟨rfl, by simp, ho⟩

theorem staticCommit_spec (cache : Option σ) (hcmd : multi[ff]? = some cmd)
    (hstatic : cmd.isStaticTTL = true) (msg : RedisMessage) :
    CommitSpec store cache multi ff msg (staticCommit store cache cmd msg) := by
  unfold staticCommit
  match hkey : cacheKey cmd, cache with
  | .error p, cache => exact .nothing cache multi ff msg (by simp)
  | .ok (ck, cc), none => exact .nothing none multi ff msg (by simp)
  | .ok (ck, cc), some c =>
    dsimp only
    split
    iterate 2
      exact ⟨rfl, by simpa using .staticUpdate hcmd hstatic hkey, by simp [setExpireAt_eraseTtl]⟩
    next err _ herr => exact ⟨rfl, by simpa using .staticCancel hcmd hstatic hkey herr, by simp⟩

theorem mgetCommit_spec (cmd : Completed) (cc : Bytes) (pttls : List RedisMessage) (i : Nat)
    (cache : Option σ) (msgs : List RedisMessage) :
    (mgetCommit store env cmd cc pttls i cache msgs).1 =
        replay store cache (mgetCommit store env cmd cc pttls i cache msgs).2.1 ∧
    (∀ e ∈ (mgetCommit store env cmd cc pttls i cache msgs).2.1, ∃ j ck x v,
      mgetCacheKey cmd (i + j) = .ok ck ∧ msgs[j]? = some x ∧ CachedCopy v x ∧
        e = .cacheUpdate ck cc v) ∧
    (∀ ms, (mgetCommit store env cmd cc pttls i cache msgs).2.2 = .ok ms →
      eraseElems ms = eraseElems msgs) := by
  induction msgs generalizing i cache with
  | nil => exact ⟨rfl, by simp [mgetCommit], by simp [mgetCommit]⟩
  | cons m msgs ih =>
    unfold mgetCommit
    match hkey : mgetCacheKey cmd i, pttls[i]?, cache with
    | .error p, _, _ | .ok _, none, _ | .ok _, some _, none => exact ⟨rfl, by simp, by simp⟩
    | .ok ck, some pttl, some c =>
      obtain ⟨hreplay, hown, hreply⟩ := ih (i + 1)
        (some (store.update c ck cc (cacheCopy env.now pttl.intlen m)).1)
      refine ⟨hreplay, ?_, ?_⟩
      · intro e he
        rcases mem_cons.mp he with rfl | he
        · exact ⟨0, ck, m, _, hkey, rfl, cacheCopy_cachedCopy _ _ _, rfl⟩
        · obtain ⟨j, ck', x, v, hk, hx, hv, rfl⟩ := hown e he
          exact ⟨j + 1, ck', x, v, by rwa [show i + (j + 1) = i + 1 + j by omega], hx, hv, rfl⟩
      · intro ms hms
        dsimp only [Except.map] at hms
        split at hms <;> cases hms
        next rest hrest => rw [eraseElems, eraseElems, hreply rest hrest, setExpireAt_eraseTtl]

variable {msg : RedisMessage} {st : ReadLoop σ} {effs : List Effect} {t : Turn σ}

theorem values_eq_front_append (hlast : msg.values.getLast? = some last) :
    msg.array = some (msg.values.dropLast ++ [last]) := by
  rw [dropLast_append_getLast? last hlast]
  cases harr : msg.array with
  | none => simp [RedisMessage.values, harr] at hlast
  | some vs => simp [RedisMessage.values, harr]

theorem mgetCommit_ok (cmd : Completed) (cc : Bytes) (pttls : List RedisMessage)
    {msgs : List RedisMessage} {i : Nat} (c : σ)
    (hkeys : ∀ j < msgs.length, ∃ ck, mgetCacheKey cmd (i + j) = .ok ck)
    (hpttls : i + msgs.length ≤ pttls.length) :
    ∃ ms, (mgetCommit store env cmd cc pttls i (some c) msgs).2.2 = .ok ms := by
  induction msgs generalizing i c with
  | nil => exact ⟨[], rfl⟩
  | cons m msgs ih =>
    rw [length_cons] at hpttls
    obtain ⟨ck, hck⟩ := hkeys 0 (by simp)
    have hpttl : pttls[i]? = some (pttls.get ⟨i, by omega⟩) := getElem?_eq_getElem _
    obtain ⟨ms, hms⟩ := ih
      (store.update c ck cc (cacheCopy env.now (pttls.get ⟨i, by omega⟩).intlen m)).1
      (fun j hj => by
        obtain ⟨ck', hk⟩ := hkeys (j + 1) (Nat.succ_lt_succ hj)
        exact ⟨ck', by rwa [show i + 1 + j = i + (j + 1) by omega]⟩) (by omega)
    unfold mgetCommit
    rw [show mgetCacheKey cmd i = .ok ck from hck, hpttl]
    dsimp only
    rw [hms]
    exact ⟨_, rfl⟩

theorem exists_last_two {α : Type} {xs : List α} (h : 2 ≤ xs.length) :
    ∃ last before, xs.getLast? = some last ∧ xs.dropLast.getLast? = some before := by
  have hne : xs ≠ [] := ne_nil_of_length_pos (by omega)
  have hfront : xs.dropLast ≠ [] := ne_nil_of_length_pos (by rw [length_dropLast]; omega)
  exact ⟨_, _, getLast?_eq_some_getLast hne, getLast?_eq_some_getLast hfront⟩

theorem execCommit_mget (cache : Option σ) {cc : Bytes} (hmget : cmd.isMGet = true)
    (hcc : mgetCacheCmd cmd = .ok cc) (hlong : 2 ≤ m.values.length)
    (hlast : m.values.getLast? = some last) :
    (execCommit store env cache cmd m).effects =
        (mgetCommit store env cmd cc m.values 0 cache last.values).2.1 ∧
    ((∃ m', (execCommit store env cache cmd m).msg = .ok m') ↔
      ∃ ms, (mgetCommit store env cmd cc m.values 0 cache last.values).2.2 = .ok ms) := by
  obtain ⟨_, pttl, -, hpttl⟩ := exists_last_two hlong
  unfold execCommit
  dsimp only
  rw [hlast, hpttl, hcc]
  dsimp only
  rw [if_pos hmget]
  refine ⟨rfl, ?_⟩
  match (mgetCommit store env cmd cc m.values 0 cache last.values).2.2 with
  | .error p => simp [Except.map]
  | .ok ms => simp [Except.map]

theorem execCommit_ok (c : σ) {k : Bytes × Bytes} (hmget : cmd.isMGet = false)
    (hkey : cacheKey cmd = .ok k) (hlong : 2 ≤ m.values.length) :
    ∃ m', (execCommit store env (some c) cmd m).msg = .ok m' := by
  obtain ⟨last, pttl, hlast, hpttl⟩ := exists_last_two hlong
  unfold execCommit
  dsimp only
  rw [hlast, hpttl, hkey, hmget]
  exact ⟨_, rfl⟩

theorem execCommit_spec (cache : Option σ) (multi : List Completed) (hff : 4 ≤ ff)
    (msg : RedisMessage) (hlen : 2 ≤ msg.values.length) :
    CommitSpec store cache multi ff msg
      (execCommit store env cache (multi.getD (ff - 1) {}) msg) := by
  set cmd := multi.getD (ff - 1) {} with hcmd
  unfold execCommit
  dsimp only
  cases hlast : msg.values.getLast? with
  | none => exact .nothing cache multi ff msg (by simp)
  | some last =>
  cases msg.values.dropLast.getLast? with
  | none => exact .nothing cache multi ff msg (by simp)
  | some pttl =>
    have harr := values_eq_front_append hlast
    dsimp only
    by_cases hmget : cmd.isMGet = true
    · rw [if_pos hmget]
      cases hcc : mgetCacheCmd cmd with
      | error p => exact .nothing cache multi ff msg (by simp)
      | ok cc =>
        obtain ⟨hreplay, hown, hreply⟩ :=
          mgetCommit_spec store env cmd cc msg.values 0 cache last.values
        refine ⟨hreplay, ?_, ?_⟩
        · intro e he
          obtain ⟨j, ck, x, v, hk, hx, hv, rfl⟩ := hown e he
          rw [Nat.zero_add] at hk
          exact .mget hff hlen hmget hcc hk hlast hx hv
        · intro m hm
          dsimp only [Except.map] at hm
          split at hm <;> cases hm
          next ms hms => exact eraseTtl_of_last harr (eraseTtl_map_array (hreply ms hms))
    · rw [if_neg hmget]
      cases hkey : cacheKey cmd with
      | error p => exact .nothing cache multi ff msg (by simp)
      | ok key =>
      cases cache with
      | none => exact .nothing none multi ff msg (by simp)
      | some c =>
        refine ⟨rfl, forall_mem_singleton.mpr ?_, ?_⟩
        · exact .exec hff hlen (Bool.eq_false_iff.mpr hmget) hkey hlast (cacheCopy_cachedCopy _ _ _)
        · rintro m ⟨⟩
          exact eraseTtl_of_last harr (setExpireAt_eraseTtl ..)

theorem commit_spec (cache : Option σ) (multi : List Completed) (ff : Nat) (msg : RedisMessage) :
    CommitSpec store cache multi ff msg (commit store env cache multi ff msg) := by
  unfold commit
  match hcmd : multi[ff]? with
  | none => exact .nothing cache multi ff msg (by simp)
  | some cmd =>
    dsimp only
    split
    next hstatic => exact staticCommit_spec store cache hcmd hstatic.2 msg
    split
    next hexec => exact execCommit_spec store env cache multi hexec.1 msg hexec.2.1
    · exact .nothing cache multi ff msg (by simp)

def ReadLoop.commitWindow (st : ReadLoop σ) : Bool :=
  decide (0 < st.ff) && decide (st.ff < st.multi.length) &&
    ((st.multi.getD st.ff {}).isStaticTTL ||
      (decide (4 ≤ st.ff) && (st.multi.headD {}).isOptIn))

theorem commit_of_not_window (hw : st.commitWindow = false) (hcmd : st.multi[st.ff]? = some cmd)
    (msg : RedisMessage) :
    commit store env st.cache st.multi st.ff msg = ⟨st.cache, [], .ok msg⟩ := by
  have hlt : st.ff < st.multi.length := (List.getElem?_eq_some_iff.mp hcmd).1
  have hget : st.multi.getD st.ff {} = cmd := by rw [getD_eq_getElem?_getD, hcmd]; rfl
  simp only [ReadLoop.commitWindow, hget, hlt, decide_true, Bool.and_true, Bool.and_eq_false_iff,
    Bool.or_eq_false_iff, decide_eq_false_iff_not] at hw
  unfold commit
  rw [hcmd]
  dsimp only
  rw [if_neg, if_neg]
  · rintro ⟨hff, -, hopt⟩
    rcases hw with hpos | ⟨-, hnot | hnot⟩
    · omega
    · exact hnot hff
    · cases hopt.symm.trans hnot
  · rintro ⟨hpos, hstatic⟩
    rcases hw with hnot | ⟨hnot, -⟩
    · exact hnot hpos
    · cases hstatic.symm.trans hnot

theorem commit_effects_eq_nil (hw : st.commitWindow = false) (msg : RedisMessage) :
    (commit store env st.cache st.multi st.ff msg).effects = [] := by
  match hcmd : st.multi[st.ff]? with
  | none =>
    unfold commit
    rw [hcmd]
  | some cmd => rw [commit_of_not_window store env hw hcmd]

/-! ## One turn -/

def Effect.touches : Effect → Bool
  | .cacheDelete _ => true
  | e => e.commits

theorem applyEffect_of_not_touches (cache : Option σ) (he : e.touches = false) :
    applyEffect store cache e = cache := by
  cases e <;> first | rfl | cases he

theorem replay_of_not_touches (cache : Option σ) (effs : List Effect)
    (h : ∀ e ∈ effs, e.touches = false) : replay store cache effs = cache := by
  induction effs generalizing cache with
  | nil => rfl
  | cons e effs ih =>
    rw [replay_cons, applyEffect_of_not_touches store cache (h e (by simp))]
    exact ih cache (fun e' he' => h e' (by simp [he']))

theorem not_commits_of_not_touches (he : e.touches = false) : e.commits = false := by
  cases e <;> first | rfl | cases he

/-- A turn that only hands messages on: it adds effects behind `effs` and leaves the cache alone. -/
structure HandsOn (cache : Option σ) (effs : List Effect) (t : Turn σ) : Prop where
  cache : t.st.cache = cache
  effects : ∃ tail, t.effects = effs ++ tail ∧ ∀ e ∈ tail, e.touches = false

theorem HandsOn.unchanged (st : ReadLoop σ) (effs : List Effect) (flow : Flow) :
    HandsOn st.cache effs ⟨flow, st, effs⟩ :=
  ⟨rfl, [], by simp, by simp⟩

theorem record_handsOn {cache : Option σ} (hc : st.cache = cache) (msg : RedisMessage)
    (effs : List Effect) : HandsOn cache effs (record st msg effs) := by
  refine ⟨hc, _, append_assoc _ _ _, ?_⟩
  intro e he
  rcases mem_append.mp he with he | he <;> split at he <;> cases he <;> first | rfl | contradiction

theorem Assigned.handsOn (h : Assigned st msg effs t) : HandsOn st.cache effs t := by
  cases h with
  | panics p => exact .unchanged st effs _
  | ignored hpush hunsub => exact .unchanged { st with prply := false, unsub := false } effs _
  | subscribed cmd hcmd hpush hno => exact record_handsOn (by rfl) _ _
  | unsubPending cmd hcmd hpush hunsub => exact record_handsOn (by rfl) _ _
  | pong hpush hskip => exact .unchanged { st with skipUnsubReply := false } effs _
  | replied cmd hcmd hpush hskip => exact record_handsOn (by rfl) _ _

theorem exitWith_handsOn (st : ReadLoop σ) (e : ReadErr) (effs : List Effect) :
    HandsOn st.cache effs (exitWith env st e effs) := by
  unfold exitWith
  split
  · exact .unchanged st effs _
  · refine ⟨rfl, _, rfl, ?_⟩
    split
    · refine forall_mem_append.mpr ⟨?_, forall_mem_singleton.mpr rfl⟩
      split
      · exact forall_mem_map.mpr fun i _ => rfl
      · exact nofun
    · exact nofun

structure DispatchSpec (st : ReadLoop σ) (msg : RedisMessage) (effs : List Effect) (t : Turn σ)
    (commits tail : List Effect) : Prop where
  effects : t.effects = effs ++ commits ++ tail
  own : ∀ e ∈ commits, CommitAt st.multi st.ff msg e
  window : st.commitWindow = false → commits = []
  cache : t.st.cache = replay store st.cache commits
  tail : ∀ e ∈ tail, e.touches = false

theorem HandsOn.dispatchSpec (h : HandsOn st.cache effs t) :
    ∃ commits tail, DispatchSpec store st msg effs t commits tail := by
  obtain ⟨hcache, tail, heffs, htail⟩ := h
  exact ⟨[], tail, by rw [heffs, append_nil], by simp, fun _ => rfl, hcache, htail⟩

theorem Dispatched.spec {env : Env} (h : Dispatched store env st msg effs t) :
    ∃ commits tail, DispatchSpec store st msg effs t commits tail := by
  have hcommit := commit_spec store env st.cache st.multi st.ff msg
  cases h with
  | idlePanics hff p | idleIgnored hff hunsub | idlePong hff hunsub hp =>
    exact HandsOn.dispatchSpec store ⟨rfl, [], by simp, by simp⟩
  | taken hff call queue hqueue ht =>
    have hcache : (st.take call queue).cache = st.cache := by cases call <;> rfl
    exact HandsOn.dispatchSpec store (hcache ▸ ht.handsOn)
  | commitPanics hff p =>
    exact ⟨_, [], (append_nil _).symm, hcommit.own,
      fun hw => commit_effects_eq_nil store env hw msg, hcommit.replay, by simp⟩
  | committed hff m hm ht =>
    obtain ⟨hcache, tail, heffs, htail⟩ := ht.handsOn
    exact ⟨_, tail, heffs, hcommit.own, fun hw => commit_effects_eq_nil store env hw msg,
      hcache.trans hcommit.replay, htail⟩

theorem Dispatched.fulfills {env : Env} (h : Dispatched store env st msg effs t)
    (hwindow : st.commitWindow = true) (hprply : st.prply = false)
    (hskip : st.skipUnsubReply = false) (hreply : (st.multi.getD st.ff {}).noReply = false)
    (hone : st.batch = false → st.multi.length ≤ 1) :
    (∃ p, t.flow = .panic p) ∨ ∃ reply, reply.eraseTtl = msg.eraseTtl ∧
      Effect.fulfill st.ch st.ff (newResult reply none) ∈ t.effects := by
  have hcommit := commit_spec store env st.cache st.multi st.ff msg
  simp only [ReadLoop.commitWindow, Bool.and_eq_true, decide_eq_true_eq] at hwindow
  obtain ⟨⟨hpos, hlt⟩, -⟩ := hwindow
  have hne : st.ff ≠ st.multi.length := by omega
  cases h with
  | idlePanics hff | idleIgnored hff | idlePong hff | taken hff => exact absurd hff hne
  | commitPanics hff p => exact .inl ⟨p, rfl⟩
  | committed hff m hm ht =>
    have hnot : ∀ {cmd}, st.multi[st.ff]? = some cmd → cmd.isUnsub = false := by
      intro cmd hcmd
      by_contra hu
      rw [getD_eq_getElem?_getD, hcmd, Option.getD_some,
        noReply_of_isUnsub (by simpa using hu)] at hreply
      cases hreply
    cases ht with
    | panics p => exact .inl ⟨p, rfl⟩
    | ignored hpush | subscribed _ _ hpush =>
      cases (show st.prply = true from hpush).symm.trans hprply
    | unsubPending cmd hcmd hpush hunsub => cases (hnot hcmd).symm.trans hunsub
    | pong hpush hs => cases (show st.skipUnsubReply = true from hs).symm.trans hskip
    | replied cmd hcmd hpush hs =>
      have hbatch : st.batch = true := by
        by_contra hb
        have := hone (by simpa using hb)
        omega
      refine .inr ⟨m, hcommit.reply m hm, ?_⟩
      rw [hnot hcmd]
      simp [record, hbatch]

end Commit

section Sound

variable {σ : Type} (cfg : PipeConfig) (store : CacheStore σ)

theorem handlePushes_replay (env : Env) (cache : Option σ) (vs : List RedisMessage) :
    (handlePushes cfg store env cache vs).1 =
      replay store cache (handlePushes cfg store env cache vs).2 := by
  induction vs generalizing cache with
  | nil => rfl
  | cons v vs ih =>
    unfold handlePushes
    split
    · rw [ih, replay_append, ← handlePush_replay]
    · exact ih cache

theorem handlePushes_effects (env : Env) (cache : Option σ) (vs : List RedisMessage) (e : Effect)
    (he : e ∈ (handlePushes cfg store env cache vs).2) :
    e.commits = false ∧ ∀ keys, e = .cacheDelete keys →
      ∃ v ∈ vs, v.typ = typePush ∧ isInvalidation v.values = true := by
  induction vs generalizing cache with
  | nil => cases he
  | cons v vs ih =>
    have hlater : ∀ {cache}, e ∈ (handlePushes cfg store env cache vs).2 → e.commits = false ∧
        ∀ keys, e = .cacheDelete keys →
          ∃ v' ∈ v :: vs, v'.typ = typePush ∧ isInvalidation v'.values = true := by
      intro cache he
      refine (ih cache he).imp_right fun hd keys hk => ?_
      obtain ⟨v', hv', h⟩ := hd keys hk
      exact ⟨v', mem_cons_of_mem _ hv', h⟩
    unfold handlePushes at he
    split at he
    next htyp =>
      rcases mem_append.mp he with he | he
      · obtain ⟨hc, hd⟩ := handlePush_effects cfg store env.hooks cache v.values e he
        exact ⟨hc, fun keys hk => ⟨v, mem_cons_self, htyp, hd keys hk⟩⟩
      · exact hlater he
    · exact hlater he

/-- The reply as the loop sees it: on Redis 6 the pushes inside an array are taken out and as many
messages are read behind it. -/
def Repaired (msg : RedisMessage) (r : Bytes) (m : RedisMessage) : Prop :=
  if cfg.version = 6 ∧ msg.values ≠ [] then
    ∃ more r', refill (msg.values.length - (msg.values.filter (·.typ != typePush)).length) r =
        (.ok more, r') ∧
      m = { msg with array := some (msg.values.filter (·.typ != typePush) ++ more) } ∧
      ∀ v ∈ m.values, v.typ ≠ typePush
  else m = msg

/-- Only replies populate the cache. -/
structure TurnSound (st : ReadLoop σ) (t : Turn σ) : Prop where
  replayed : t.st.cache = replay store st.cache t.effects
  deletes : ∀ keys, Effect.cacheDelete keys ∈ t.effects →
    ∃ msg r, readNextMessage st.r = (.ok msg, r) ∧
      ((isPush cfg msg = true ∧ isInvalidation msg.values = true) ∨
        ∃ v ∈ msg.values, v.typ = typePush ∧ isInvalidation v.values = true)
  /-- A commit is taken from a message that is no push, and that is recorded as the reply of the
  command whose key is committed. -/
  commits : ∀ e ∈ t.effects, e.commits = true →
    ∃ msg r m, readNextMessage st.r = (.ok msg, r) ∧ isPush cfg msg = false ∧
      Repaired cfg msg r m ∧ CommitOf st.multi st.ff m e ∧
      ((∃ p, t.flow = .panic p) ∨ ∃ reply, reply.eraseTtl = m.eraseTtl ∧
        Effect.fulfill st.ch st.ff (newResult reply none) ∈ t.effects)

/-- The condition: while the loop stands at a reply that is committed, no notification about a
subscription comes in between, no PING reply is outstanding, the messages that fill up a Redis 6
array are no pushes, and a command in front of the EXEC is not answered by an array of values. -/
def commitsSafely (st : ReadLoop σ) : Bool :=
  !st.commitWindow ||
    (!st.skipUnsubReply && !(st.multi.getD st.ff {}).noReply &&
      match readNextMessage st.r with
      | (.ok msg, r) =>
        if isPush cfg msg then !isNotification msg.values || decide (0 < st.skip)
        else if cfg.version = 6 ∧ msg.values ≠ [] then
          match refill (msg.values.length - (msg.values.filter (·.typ != typePush)).length) r with
          | (.ok more, _) => more.all (·.typ != typePush) &&
              execDue st.multi st.ff (msg.values.filter (·.typ != typePush) ++ more)
          | _ => true
        else execDue st.multi st.ff msg.values
      | _ => true)

/-- The effects `effs` come from pushes that the turn found, and leave `cache`. -/
structure FromPushes (st : ReadLoop σ) (cache : Option σ) (effs : List Effect) : Prop where
  replayed : cache = replay store st.cache effs
  commits : ∀ e ∈ effs, e.commits = false
  deletes : ∀ keys, Effect.cacheDelete keys ∈ effs →
    ∃ msg r, readNextMessage st.r = (.ok msg, r) ∧
      ((isPush cfg msg = true ∧ isInvalidation msg.values = true) ∨
        ∃ v ∈ msg.values, v.typ = typePush ∧ isInvalidation v.values = true)

namespace FromPushes

variable {cfg store} {st : ReadLoop σ} {msg : RedisMessage} {r : Bytes} {cache : Option σ}
  {effs : List Effect} {t : Turn σ}

theorem none : FromPushes cfg store st st.cache [] := ⟨rfl, nofun, nofun⟩

theorem push (hread : readNextMessage st.r = (.ok msg, r)) (hpush : isPush cfg msg = true)
    (env : Env) : FromPushes cfg store st (handlePush cfg store env.hooks st.cache msg.values).cache
      (handlePush cfg store env.hooks st.cache msg.values).effects where
  replayed := handlePush_replay cfg store env.hooks st.cache msg.values
  commits e he := (handlePush_effects cfg store env.hooks st.cache msg.values e he).1
  deletes keys hk := ⟨msg, r, hread, .inl ⟨hpush,
    (handlePush_effects cfg store env.hooks st.cache msg.values _ hk).2 keys rfl⟩⟩

theorem array (hread : readNextMessage st.r = (.ok msg, r)) (env : Env) :
    FromPushes cfg store st (handlePushes cfg store env st.cache msg.values).1
      (handlePushes cfg store env st.cache msg.values).2 where
  replayed := handlePushes_replay cfg store env st.cache msg.values
  commits e he := (handlePushes_effects cfg store env st.cache msg.values e he).1
  deletes keys hk := ⟨msg, r, hread, .inr
    ((handlePushes_effects cfg store env st.cache msg.values _ hk).2 keys rfl)⟩

theorem sound {commits tail : List Effect} (h : FromPushes cfg store st cache effs)
    (heffs : t.effects = effs ++ commits ++ tail) (hcache : t.st.cache = replay store cache commits)
    (htail : ∀ e ∈ tail, e.touches = false)
    (hcommits : ∀ e ∈ commits, (∀ keys, e ≠ .cacheDelete keys) ∧
      ∃ msg r m, readNextMessage st.r = (.ok msg, r) ∧ isPush cfg msg = false ∧
        Repaired cfg msg r m ∧ CommitOf st.multi st.ff m e ∧
        ((∃ p, t.flow = .panic p) ∨ ∃ reply, reply.eraseTtl = m.eraseTtl ∧
          Effect.fulfill st.ch st.ff (newResult reply Option.none) ∈ t.effects)) :
    TurnSound cfg store st t := by
  have hmem : ∀ e ∈ t.effects, e ∈ effs ∨ e ∈ commits ∨ e ∈ tail := by simp [heffs]
  refine ⟨?_, fun keys hk => ?_, fun e he hc => ?_⟩
  · rw [heffs, replay_append, replay_append, replay_of_not_touches store _ tail htail, ← h.replayed,
      hcache]
  · rcases hmem _ hk with hk | hk | hk
    · exact h.deletes keys hk
    · exact absurd rfl ((hcommits _ hk).1 keys)
    · cases htail _ hk
  · rcases hmem e he with he | he | he
    · cases (h.commits e he).symm.trans hc
    · exact (hcommits e he).2
    · cases (not_commits_of_not_touches (htail e he)).symm.trans hc

theorem handsOn (h : FromPushes cfg store st cache effs) (ht : HandsOn cache effs t) :
    TurnSound cfg store st t := by
  obtain ⟨hcache, tail, heffs, htail⟩ := ht
  have heffs' : t.effects = effs ++ [] ++ tail := by rw [heffs, append_nil]
  exact h.sound heffs' hcache htail nofun

variable {env : Env} {st' : ReadLoop σ} {m : RedisMessage}

theorem not_window (h : FromPushes cfg store st cache effs)
    (ht : Dispatched store env st' m effs t) (hcache : st'.cache = cache)
    (hwindow : st'.commitWindow = false) : TurnSound cfg store st t := by
  subst hcache
  obtain ⟨commits, tail, hspec⟩ := ht.spec
  obtain rfl := hspec.window hwindow
  exact h.sound hspec.effects hspec.cache hspec.tail nofun

theorem window (h : FromPushes cfg store st cache effs) (ht : Dispatched store env st' m effs t)
    (hcache : st'.cache = cache) (hread : readNextMessage st.r = (.ok msg, r))
    (hpush : isPush cfg msg = false) (hrep : Repaired cfg msg r m)
    (hdue : execDue st.multi st.ff m.values = true) (hmulti : st'.multi = st.multi)
    (hff : st'.ff = st.ff)
    (hch : st'.ch = st.ch)
    (hful : (∃ p, t.flow = .panic p) ∨ ∃ reply, reply.eraseTtl = m.eraseTtl ∧
      Effect.fulfill st'.ch st'.ff (newResult reply Option.none) ∈ t.effects) :
    TurnSound cfg store st t := by
  subst hcache
  obtain ⟨commits, tail, hspec⟩ := ht.spec
  have hown := hspec.own
  rw [hch, hff] at hful
  rw [hmulti, hff] at hown
  refine h.sound hspec.effects hspec.cache hspec.tail fun e he => ⟨?_, msg, r, m, hread, hpush, hrep,
    (hown e he).commitOf hdue, hful⟩
  rintro keys rfl
  cases hown _ he

end FromPushes

end Sound

def keyStore : CacheStore (List Bytes) where
  update keys key _ _ := (key :: keys, 0)
  cancel keys _ _ _ := keys
  delete keys _ := keys

def staticBatch : Call :=
  .multi [optInCmd, { cs := { s := [lit "GET", lit "k"] }, cf := readonly ||| staticTTLTag }] 0

def afterOptIn (bs : Bytes) : ReadLoop (List Bytes) :=
  (readStep {} keyStore {} { cache := some [], queue := [staticBatch], r := lit "+OK\r\n" ++ bs }).st

theorem reachable_afterOptIn {ok : ReadLoop (List Bytes) → Prop} (bs : Bytes)
    (hok : ok { cache := some [], queue := [staticBatch], r := lit "+OK\r\n" ++ bs })
    (hnext : (readStep {} keyStore {}
      { cache := some [], queue := [staticBatch], r := lit "+OK\r\n" ++ bs }).flow = .next) :
    Reachable {} keyStore ok (afterOptIn bs) := by
  refine ⟨some [], ?_⟩
  have hwritten : LoopStep {} keyStore ok { cache := some [] }
      { cache := some [], queue := [staticBatch] } := .written { cache := some [] } staticBatch
  have harrived : LoopStep {} keyStore ok { cache := some [], queue := [staticBatch] }
      { cache := some [], queue := [staticBatch], r := lit "+OK\r\n" ++ bs } :=
    .arrived { cache := some [], queue := [staticBatch] } (lit "+OK\r\n" ++ bs)
  exact ((Relation.ReflTransGen.single hwritten).tail harrived).tail (.turn _ {} hok hnext)

end Rueidis
