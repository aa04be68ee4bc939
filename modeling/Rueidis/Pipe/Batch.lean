import Rueidis.Pipe.CacheCommits
import Rueidis.Pipe.DoCache

/-!
# A batch in the read loop

A batch follows its replies through the loop: which of them are committed, what is recorded for the
caller, and so what `DoMulti` returns.
-/

namespace Rueidis

open List

section Batch

variable {σ : Type} (store : CacheStore σ)

/-! ## One reply -/

variable {cmds : List Completed} {i : Nat} {m : RedisMessage} {cache : Option σ} {st : ReadLoop σ}
  {cmd : Completed} {effs : List Effect} {e : Effect}

structure InBatch (cmds : List Completed) (i : Nat) (st : ReadLoop σ) : Prop where
  multi : st.multi = cmds
  ff : st.ff = i
  batch : st.batch = true
  prply : st.prply = false
  skipUnsubReply : st.skipUnsubReply = false

def recorded (cmds : List Completed) (ch i : Nat) (m : RedisMessage) : List Effect :=
  .fulfill ch i (newResult m none) ::
    (if i + 1 = cmds.length then [.deliver ch (newResult m none)] else [])

theorem dispatch_inBatch (h : InBatch cmds i st) (hcmd : cmds[i]? = some cmd)
    (hreply : cmd.noReply = false) (env : Env) (m : RedisMessage) :
    (∃ p st', (commit store env st.cache cmds i m).msg = .error p ∧
      dispatch store env st m [] =
        ⟨.panic p, st', (commit store env st.cache cmds i m).effects⟩) ∨
    (∃ m' st', (commit store env st.cache cmds i m).msg = .ok m' ∧ InBatch cmds (i + 1) st' ∧
      st'.cache = (commit store env st.cache cmds i m).cache ∧
      dispatch store env st m [] = ⟨.next, st',
        (commit store env st.cache cmds i m).effects ++ recorded cmds st.ch i m'⟩) := by
  obtain ⟨rfl, rfl, hbatch, hp, hs⟩ := h
  have hne : st.ff ≠ st.multi.length := by
    have := (List.getElem?_eq_some_iff.mp hcmd).1
    omega
  unfold dispatch
  rw [if_neg hne]
  dsimp only
  match hmsg : (commit store env st.cache st.multi st.ff m).msg with
  | .error p => exact .inl ⟨p, _, rfl, rfl⟩
  | .ok m' =>
    dsimp only
    rw [nil_append, assign_ordinary (by exact hp) (by exact hs) (by exact hcmd) hreply]
    refine .inr ⟨m', { st with
      cache := (commit store env st.cache st.multi st.ff m).cache, ff := st.ff + 1 },
      rfl, ⟨rfl, rfl, hbatch, hp, hs⟩, rfl, ?_⟩
    simp [record, recorded, hbatch]

theorem dispatch_dueBatch (cache : Option σ) (hcmd : cmds[0]? = some cmd)
    (hreply : cmd.noReply = false) (env : Env) (m : RedisMessage) :
    ∃ st', InBatch cmds 1 st' ∧ st'.cache = cache ∧
      dispatch store env (dueBatch cache cmds) m [] = ⟨.next, st', recorded cmds 0 0 m⟩ := by
  have hassign : assign ((dueBatch cache cmds).take (.multi cmds 0) []) m [] =
      record ((dueBatch cache cmds).take (.multi cmds 0) []) m [] :=
    assign_ordinary rfl rfl hcmd hreply m []
  refine ⟨(record ((dueBatch cache cmds).take (.multi cmds 0) []) m []).st,
    ⟨rfl, rfl, rfl, rfl, rfl⟩, rfl, ?_⟩
  change assign ((dueBatch cache cmds).take (.multi cmds 0) []) m [] = _
  rw [hassign]
  rfl

/-! ## What the caller sees -/

theorem resultAt_append (effs effs' : List Effect) (i : Nat) :
    resultAt (effs ++ effs') i = (resultAt effs i).or (resultAt effs' i) :=
  findSome?_append

theorem resultAt_of_commits (h : ∀ e ∈ effs, e.commits = true) (i : Nat) :
    resultAt effs i = none := by
  unfold resultAt
  rw [findSome?_eq_none_iff]
  intro e he
  cases e <;> first | rfl | cases h _ he

theorem resultAt_recorded (cmds : List Completed) (ch i q : Nat) (m : RedisMessage) :
    resultAt (recorded cmds ch i m) q = if i = q then some (newResult m none) else none := by
  unfold recorded resultAt
  rw [findSome?_cons]
  by_cases h : i = q
  · simp [h]
  · simp only [h, if_false]
    split <;> rfl

theorem commits_of_commitAt {multi : List Completed} {ff : Nat} (h : CommitAt multi ff m e) :
    e.commits = true := by
  cases h <;> rfl

theorem commit_effects_commits (env : Env) (cache : Option σ) (cmds : List Completed) (i : Nat)
    (m : RedisMessage) : ∀ e ∈ (commit store env cache cmds i m).effects, e.commits = true :=
  fun e he => commits_of_commitAt ((commit_spec store env cache cmds i m).own e he)

/-- What the loop makes of `replies`, the first of which is the `i`-th of the batch.  The first
reply of a batch is never committed. -/
structure FeedSpec (cmds : List Completed) (i : Nat) (cache : Option σ)
    (replies : List (Env × RedisMessage)) (t : Turn σ) : Prop where
  flow : t.flow = .next ∨ ∃ p, t.flow = .panic p
  reply : t.flow = .next → ∀ p env m, 0 < i + p → replies[p]? = some (env, m) → ∃ c m',
    (commit store env c cmds (i + p) m).msg = .ok m' ∧
    (∀ e ∈ (commit store env c cmds (i + p) m).effects, e ∈ t.effects) ∧
    resultAt t.effects (i + p) = some (newResult m' none)
  others : ∀ q, q < i ∨ i + replies.length ≤ q → resultAt t.effects q = none
  origin : ∀ e ∈ t.effects, e.commits = true → ∃ p env m c, 0 < i + p ∧
    replies[p]? = some (env, m) ∧ e ∈ (commit store env c cmds (i + p) m).effects
  calm : cache.isSome = true →
    (∀ p env m c, 0 < i + p → replies[p]? = some (env, m) → c.isSome = true →
      ∃ m', (commit store env c cmds (i + p) m).msg = .ok m') → t.flow = .next

theorem applyEffect_isSome (h : cache.isSome = true) (e : Effect) :
    (applyEffect store cache e).isSome = true := by
  cases e <;> simp [applyEffect, h]

theorem replay_isSome (h : cache.isSome = true) (effs : List Effect) :
    (replay store cache effs).isSome = true := by
  induction effs generalizing cache with
  | nil => exact h
  | cons e effs ih => exact ih (applyEffect_isSome store h e)

theorem not_commits_of_mem_recorded {ch : Nat} (he : e ∈ recorded cmds ch i m) :
    e.commits = false := by
  rcases mem_cons.mp he with rfl | he
  · rfl
  · split at he
    · rw [mem_singleton.mp he]
      rfl
    · cases he

variable {store}

theorem FeedSpec.cons {cache' : Option σ} {env : Env} {m' : RedisMessage}
    {ms : List (Env × RedisMessage)} {t : Turn σ} {own : List Effect}
    (h : FeedSpec store cmds (i + 1) cache' ms t)
    (hsome : cache.isSome = true → cache'.isSome = true)
    (hresult : ∀ q, resultAt own q = if i = q then some (newResult m' none) else none)
    (horigin : ∀ e ∈ own, e.commits = true → 0 < i ∧ e ∈ (commit store env cache cmds i m).effects)
    (hreply : 0 < i → (commit store env cache cmds i m).msg = .ok m' ∧
      ∀ e ∈ (commit store env cache cmds i m).effects, e ∈ own) :
    FeedSpec store cmds i cache ((env, m) :: ms) { t with effects := own ++ t.effects } := by
  refine ⟨h.flow, fun hnext p env' m₁ hp hm₁ => ?_, fun q hq => ?_, fun e he hc => ?_,
    fun hc hcalm => h.calm (hsome hc) fun p env' m₁ c _ hm₁ hc => ?_⟩
  · cases p with
    | zero =>
      cases hm₁
      obtain ⟨hmsg, heffs⟩ := hreply hp
      refine ⟨cache, m', hmsg, fun e he => mem_append_left _ (heffs e he), ?_⟩
      rw [resultAt_append, hresult, if_pos (Nat.add_zero i).symm]
      rfl
    | succ p =>
      obtain ⟨c, m₂, hm₂, heffs, hres⟩ := h.reply hnext p env' m₁ (by omega) hm₁
      rw [Nat.succ_add_eq_add_succ] at hm₂ heffs hres
      refine ⟨c, m₂, hm₂, fun e he => mem_append_right _ (heffs e he), ?_⟩
      rw [resultAt_append, hresult, if_neg (by omega), Option.none_or, hres]
  · rw [length_cons] at hq
    rw [resultAt_append, hresult, if_neg (by omega), Option.none_or]
    exact h.others q (by omega)
  · rcases mem_append.mp he with he | he
    · obtain ⟨hi, he'⟩ := horigin e he hc
      exact ⟨0, env, m, cache, hi, rfl, he'⟩
    · obtain ⟨p, env', m₁, c, -, hm₁, he'⟩ := h.origin e he hc
      rw [Nat.succ_add_eq_add_succ] at he'
      exact ⟨p + 1, env', m₁, c, by omega, hm₁, he'⟩
  · rw [Nat.succ_add_eq_add_succ]
    exact hcalm (p + 1) env' m₁ c (by omega) hm₁ hc

variable (store)

theorem feed_spec (cmds : List Completed) (hord : ∀ c ∈ cmds, c.noReply = false)
    (replies : List (Env × RedisMessage)) (hi : 0 < i) (h : InBatch cmds i st)
    (hlen : i + replies.length ≤ cmds.length) :
    FeedSpec store cmds i st.cache replies (feed store st replies) := by
  induction replies generalizing i st with
  | nil =>
    exact ⟨.inl rfl, by simp, fun q _ => rfl, by simp [feed], fun _ _ => rfl⟩
  | cons em ms ih =>
    obtain ⟨env, m⟩ := em
    rw [length_cons] at hlen
    obtain ⟨cmd, hcmd⟩ : ∃ cmd, cmds[i]? = some cmd :=
      ⟨_, getElem?_eq_getElem (by omega)⟩
    have hreply := hord cmd (mem_of_getElem? hcmd)
    have hown := commit_effects_commits store env st.cache cmds i m
    rw [feed]
    rcases dispatch_inBatch store h hcmd hreply env m with
      ⟨p, st', hmsg, hturn⟩ | ⟨m', st', hmsg, hin, hcache, hturn⟩ <;> rw [hturn] <;> dsimp only
    · -- the commit panics, and with it the loop
      refine ⟨.inr ⟨p, rfl⟩, nofun, fun q _ => resultAt_of_commits hown q,
        fun e he _ => ⟨0, env, m, st.cache, hi, rfl, he⟩, fun hsome hcalm => ?_⟩
      obtain ⟨m', hm'⟩ := hcalm 0 env m st.cache hi rfl hsome
      cases hmsg.symm.trans hm'
    · refine (ih (Nat.succ_pos i) hin (by omega)).cons (fun hsome => ?_) (fun q => ?_)
        (fun e he hc => ⟨hi, ?_⟩) fun _ => ⟨hmsg, fun e he => mem_append_left _ he⟩
      · rw [hcache, (commit_spec store env st.cache cmds i m).replay]
        exact replay_isSome store hsome _
      · rw [resultAt_append, resultAt_of_commits hown, Option.none_or, resultAt_recorded]
      · refine (mem_append.mp he).resolve_right fun he => ?_
        cases (not_commits_of_mem_recorded he).symm.trans hc

theorem feed_dueBatch (cmds : List Completed) (hord : ∀ c ∈ cmds, c.noReply = false)
    (cache : Option σ) (replies : List (Env × RedisMessage)) (hlen : replies.length ≤ cmds.length) :
    FeedSpec store cmds 0 cache replies (feed store (dueBatch cache cmds) replies) := by
  match replies with
  | [] => exact ⟨.inl rfl, by simp, fun q _ => rfl, by simp [feed], fun _ _ => rfl⟩
  | (env, m) :: ms =>
    rw [length_cons] at hlen
    obtain ⟨cmd, hcmd⟩ : ∃ cmd, cmds[0]? = some cmd :=
      ⟨_, getElem?_eq_getElem (by omega)⟩
    obtain ⟨st', hin, hcache, hturn⟩ := dispatch_dueBatch store cache hcmd
      (hord cmd (mem_of_getElem? hcmd)) env m
    have hspec := feed_spec store cmds hord ms Nat.one_pos hin (by omega)
    rw [feed, hturn]
    exact hspec.cons (hcache ▸ id) (fun q => resultAt_recorded cmds 0 0 q m)
      (fun e he hc => by cases (not_commits_of_mem_recorded he).symm.trans hc)
      fun h => absurd h (Nat.lt_irrefl 0)

/-! ## What `DoMulti` returns -/

theorem resultsOf_getD {n p : Nat} (hp : p < n) (effs : List Effect) (err : Err) :
    (resultsOf n effs err).getD p {} = (resultAt effs p).getD (newErrorResult (some err)) := by
  unfold resultsOf
  rw [getD_eq_getElem?_getD, getElem?_map, getElem?_range hp]
  rfl

/-- The result at `p` is an error, or the reply as it was committed. -/
def ReturnedAt (cmds : List Completed) (served : Served) (effs : List Effect) (p : Nat)
    (r : RedisResult) : Prop :=
  (∃ err, r.err = some err) ∨
  ∃ env m c m', served.replies[p]? = some (env, m) ∧
    (commit store env c cmds p m).msg = .ok m' ∧
    (∀ e ∈ (commit store env c cmds p m).effects, e ∈ effs) ∧ r = newResult m' none

theorem doMulti_returned (cmds : List Completed) (hord : ∀ c ∈ cmds, c.noReply = false)
    (cache : Option σ) (served : Served) (hlen : served.replies.length ≤ cmds.length)
    {resps : List RedisResult} (h : doMulti store cache cmds served = (effs, .returned resps))
    {p : Nat} (hp : 0 < p) (hpn : p < cmds.length) :
    ReturnedAt store cmds served effs p (resps.getD p {}) := by
  have hspec := feed_dueBatch store cmds hord cache served.replies hlen
  unfold doMulti at h
  dsimp only at h
  set t := feed store (dueBatch cache cmds) served.replies with ht
  rcases hspec.flow with hnext | ⟨q, hpanic⟩
  · rw [hnext] at h
    dsimp only at h
    -- both ends that hand out results read them off the loop's effects
    have hresults : ∀ err, resps = resultsOf cmds.length t.effects err → effs = t.effects →
        ReturnedAt store cmds served effs p (resps.getD p {}) := by
      rintro err rfl rfl
      rw [resultsOf_getD hpn]
      by_cases hread : p < served.replies.length
      · have hat := getElem?_eq_getElem hread
        obtain ⟨c, m', hm', heffs, hres⟩ := hspec.reply hnext p _ _ (by omega) hat
        rw [Nat.zero_add] at hm' heffs hres
        rw [hres]
        exact .inr ⟨_, _, c, m', hat, hm', heffs, rfl⟩
      · rw [hspec.others p (by omega)]
        exact .inl ⟨err, rfl⟩
    split at h
    · split at h <;> cases h
      exact hresults _ rfl rfl
    · cases h
      exact hresults _ rfl rfl
    next err _ =>
      cases h
      refine .inl ⟨err, ?_⟩
      rw [getD_eq_getElem?_getD, getElem?_replicate, if_pos hpn]
      rfl
  · rw [hpanic] at h
    cases h

end Batch

end Rueidis
