import Rueidis.Pipe.Batch

/-!
# Settling a flight

A cached call leaves settling to two sides: the read loop commits the replies, and the caller cancels
what failed.
-/

namespace Rueidis

open List

structure Cacheable where
  cmd : Completed
  replies : cmd.noReply = false
  notMulti : isMulti cmd = false
  notExec : isExec cmd = false
  mget : cmd.isMGet = true → (∃ keys, cmd.commands = lit "MGET" :: keys) ∨
    ∃ keys path, cmd.commands = lit "JSON.MGET" :: (keys ++ [path])

/-- What a server answers to a batch: at most one reply for each command, and to the EXEC of a
transaction an error, a null, or an array with one element for each queued command. -/
structure ServerAnswers (cmds : List Completed) (replies : List (Env × RedisMessage)) : Prop where
  length_le : replies.length ≤ cmds.length
  exec : ∀ front queued rest, cmds = front ++ multiCmd :: (queued ++ execCmd :: rest) →
    (∀ c ∈ queued, isMulti c = false ∧ isExec c = false) →
    ∀ env m, replies[front.length + queued.length + 1]? = some (env, m) →
      m.error.isSome = true ∨ (m.isArray = true ∧ m.values.length = queued.length)

def Effect.settles (k : Bytes × Bytes) : Effect → Prop
  | .cacheUpdate ck cc _ => (ck, cc) = k
  | .cacheCancel ck cc _ => (ck, cc) = k
  | _ => False

instance (k : Bytes × Bytes) : DecidablePred (Effect.settles k)
  | .cacheUpdate ck cc _ => inferInstanceAs (Decidable ((ck, cc) = k))
  | .cacheCancel ck cc _ => inferInstanceAs (Decidable ((ck, cc) = k))
  | .cacheDelete _ | .onInvalidations _ | .hookInvalidations _ | .publish _ _ _ | .hookMessage _
  | .confirm _ _ | .unsubscribe _ _ | .hookSubscription _ | .fulfill _ _ _ | .deliver _ _ =>
    isFalse id

/-- A call that has returned leaves none of the flights open that it opened. -/
def CacheCall.Settled {α : Type} (call : CacheCall α) : Prop :=
  ∀ a, call.finish = .returned a → ∀ k ∈ call.missed, ∃ e ∈ call.effects, e.settles k

/-! ## The replies that settle a key -/

section Settle

variable {σ : Type} (store : CacheStore σ)

variable {cmds : List Completed} {served : Served} {effs : List Effect} {resps : List RedisResult}

theorem optIn_isOptIn (optIn : Bool) : (pipeOptInCmd optIn).isOptIn = true := by
  cases optIn <;> decide

theorem optIn_noReply (optIn : Bool) : (pipeOptInCmd optIn).noReply = false := by
  cases optIn <;> decide

variable {cache : Option σ} {cmd : Completed} {ck cc : Bytes} {m m' : RedisMessage}

theorem staticCommit_settles (hkey : cacheKey cmd = .ok (ck, cc))
    (hm : (staticCommit store cache cmd m).msg = .ok m') :
    ∃ e ∈ (staticCommit store cache cmd m).effects, e.settles (ck, cc) := by
  unfold staticCommit at hm ⊢
  rw [hkey] at hm ⊢
  match cache with
  | none => cases hm
  | some c =>
    dsimp only
    split
    · exact ⟨_, mem_singleton.mpr rfl, rfl⟩
    · exact ⟨_, mem_singleton.mpr rfl, rfl⟩
    · exact ⟨_, mem_singleton.mpr rfl, rfl⟩

theorem execCommit_settles (env : Env) (hmget : cmd.isMGet = false)
    (hkey : cacheKey cmd = .ok (ck, cc)) (hm : (execCommit store env cache cmd m).msg = .ok m') :
    ∃ e ∈ (execCommit store env cache cmd m).effects, e.settles (ck, cc) := by
  unfold execCommit at hm ⊢
  rw [hmget, hkey] at hm ⊢
  dsimp only at hm ⊢
  split
  · rename_i last pttl hlast hpttl
    rw [hlast, hpttl] at hm
    match cache with
    | none => cases hm
    | some c => exact ⟨_, mem_singleton.mpr rfl, rfl⟩
  · rename_i hshort
    split at hm
    · rename_i last pttl hlast hpttl
      exact absurd hpttl (hshort last pttl hlast)
    · cases hm

theorem doMulti_static (hord : ∀ c ∈ cmds, c.noReply = false)
    (hlen : served.replies.length ≤ cmds.length)
    (h : doMulti store cache cmds served = (effs, .returned resps)) {p : Nat} (hp : 0 < p)
    (hcmd : cmds[p]? = some cmd) (hstatic : cmd.isStaticTTL = true)
    (hkey : cacheKey cmd = .ok (ck, cc)) (hok : (resps.getD p {}).err = none) :
    ∃ e ∈ effs, e.settles (ck, cc) := by
  have hpn := (List.getElem?_eq_some_iff.mp hcmd).1
  rcases doMulti_returned store cmds hord cache served hlen h hp hpn with
    ⟨err, herr⟩ | ⟨env, m, c, m', -, hm', heffs, -⟩
  · rw [herr] at hok
    cases hok
  · have hcommit : commit store env c cmds p m = staticCommit store c cmd m := by
      unfold commit
      rw [hcmd]
      exact if_pos ⟨hp, hstatic⟩
    rw [hcommit] at hm' heffs
    obtain ⟨e, he, hsettles⟩ := staticCommit_settles store hkey hm'
    exact ⟨e, heffs e he, hsettles⟩

theorem error_eq_none_of_toArray {r : RedisResult} {vs : List RedisMessage}
    (h : r.toArray = .ok vs) : r.error = none := by
  unfold RedisResult.toArray at h
  unfold RedisResult.error
  split at h
  · cases h
  · by_cases ha : r.val.isArray = true
    · exact RedisMessage.error_eq_none_of_isArray ha
    · unfold RedisMessage.toArray at h
      rw [if_neg ha] at h
      split at h <;> cases h

theorem eraseTtl_typ (m : RedisMessage) : m.eraseTtl.typ = m.typ := by
  cases m
  rfl

theorem eraseElems_eq_map (vs : List RedisMessage) :
    eraseElems vs = vs.map RedisMessage.eraseTtl := by
  induction vs with
  | nil => rfl
  | cons v vs ih => rw [eraseElems, ih, map_cons]

theorem values_of_eraseTtl (h : m.eraseTtl = m'.eraseTtl) :
    m.values.map RedisMessage.eraseTtl = m'.values.map RedisMessage.eraseTtl := by
  have hvalues : ∀ x : RedisMessage, x.eraseTtl.values = eraseElems x.values := by
    rintro ⟨_, _, array, _, _, _⟩
    cases array <;> rfl
  rw [← eraseElems_eq_map, ← hvalues, h, hvalues, eraseElems_eq_map]

theorem values_length_of_eraseTtl (h : m.eraseTtl = m'.eraseTtl) :
    m.values.length = m'.values.length := by
  simpa using congrArg length (values_of_eraseTtl h)

theorem error_isSome_of_typ (h : m.typ = m'.typ) : m.error.isSome = m'.error.isSome := by
  unfold RedisMessage.error
  rw [h]
  split
  · rfl
  · split <;> rfl

theorem doMulti_exec (hord : ∀ c ∈ cmds, c.noReply = false) (hlead : (cmds.headD {}).isOptIn = true)
    (hserver : ServerAnswers cmds served.replies)
    (h : doMulti store cache cmds served = (effs, .returned resps))
    {front queued rest : List Completed}
    (hcmds : cmds = front ++ multiCmd :: ((queued ++ [cmd]) ++ execCmd :: rest))
    (hfront : front ≠ []) (hqueued : queued ≠ [])
    (hplain : ∀ c ∈ queued ++ [cmd], isMulti c = false ∧ isExec c = false)
    (hok : (resps.getD (front.length + (queued ++ [cmd]).length + 1) {}).error = none) :
    ∃ env m c m', served.replies[front.length + (queued ++ [cmd]).length + 1]? = some (env, m) ∧
      m.isArray = true ∧ m.values.length = (queued ++ [cmd]).length ∧
      (execCommit store env c cmd m).msg = .ok m' ∧
      (∀ e ∈ (execCommit store env c cmd m).effects, e ∈ effs) ∧
      resps.getD (front.length + (queued ++ [cmd]).length + 1) {} = newResult m' none := by
  set p := front.length + (queued ++ [cmd]).length + 1 with hp
  have hexec : cmds[p]? = some execCmd := by
    rw [hcmds, List.getElem?_append_right (by omega), show p - front.length =
      (queued ++ [cmd]).length + 1 by omega, List.getElem?_cons_succ,
      List.getElem?_append_right (Nat.le_refl _), Nat.sub_self]
    rfl
  have hbefore : cmds.getD (p - 1) {} = cmd := by
    rw [List.getD_eq_getElem?_getD, hcmds, List.getElem?_append_right (by omega)]
    rw [show p - 1 - front.length = queued.length + 1 by simp [hp],
      List.getElem?_cons_succ, List.append_assoc,
      List.getElem?_append_right (Nat.le_refl _), Nat.sub_self]
    rfl
  have hpn := (List.getElem?_eq_some_iff.mp hexec).1
  have hfront' := List.length_pos_of_ne_nil hfront
  have hqueued' := List.length_pos_of_ne_nil hqueued
  have hlong : 2 ≤ (queued ++ [cmd]).length := by
    rw [List.length_append, List.length_singleton]
    omega
  rcases doMulti_returned store cmds hord cache served hserver.length_le h (by omega) hpn with
    ⟨err, herr⟩ | ⟨env, m, c, m', hm, hm', heffs, hresp⟩
  · unfold RedisResult.error at hok
    rw [herr] at hok
    cases hok
  · -- the loop does not change the type of the reply, so an error would have been seen
    have htyp : m'.typ = m.typ := by
      rw [← eraseTtl_typ m', (commit_spec store env c cmds p m).reply m' hm', eraseTtl_typ]
    have hnoerr : m.error.isSome = false := by
      rw [hresp] at hok
      rw [← error_isSome_of_typ htyp]
      exact Option.isSome_eq_false_iff.mpr (Option.isNone_iff_eq_none.mpr hok)
    rcases hserver.exec front (queued ++ [cmd]) rest hcmds hplain env m hm with herr | ⟨harr, hlen⟩
    · rw [hnoerr] at herr
      cases herr
    · have hcommit : commit store env c cmds p m = execCommit store env c cmd m := by
        unfold commit
        rw [hexec]
        dsimp only
        rw [if_neg (fun hs => absurd hs.2 (by decide)),
          if_pos ⟨by omega, by omega, hlead⟩, hbefore]
      rw [hcommit] at hm' heffs
      exact ⟨env, m, c, m', hm, harr, hlen, hm', heffs, hresp⟩

/-! ## `DoCache` of one key -/

theorem plain_pttl (key : Bytes) : isMulti (pttlCmd key) = false ∧ isExec (pttlCmd key) = false := by
  constructor
  · exact beq_eq_false_iff_ne.mpr (by simp [pttlCmd, newCompleted, Completed.commands])
  · exact beq_eq_false_iff_ne.mpr (by simp [pttlCmd, newCompleted, Completed.commands])

variable (optIn : Bool) (cache : σ)

theorem doCacheStatic_settled (cmd : Cacheable) (hstatic : cmd.cmd.isStaticTTL = true)
    (hkey : cacheKey cmd.cmd = .ok (ck, cc)) (served : Served) (hlen : served.replies.length ≤ 2) :
    (doCacheStatic store optIn cache cmd.cmd ck cc served).Settled := by
  have hord : ∀ c ∈ [pipeOptInCmd optIn, cmd.cmd], c.noReply = false := by
    simp [optIn_noReply, cmd.replies]
  unfold doCacheStatic
  dsimp only
  match h : doMulti store (some cache) [pipeOptInCmd optIn, cmd.cmd] served with
  | (effs, .panicked p) => simp [CacheCall.Settled]
  | (effs, .waiting) => simp [CacheCall.Settled]
  | (effs, .returned resps) =>
    dsimp only
    split
    · rename_i err herr
      rintro _ - k hk
      exact ⟨_, mem_append_right _ (mem_singleton.mpr rfl),
        (mem_singleton.mp hk).symm⟩
    · rename_i hok
      rintro _ - k hk
      rw [mem_singleton.mp hk]
      exact doMulti_static store hord hlen h Nat.one_pos rfl hstatic hkey hok

theorem doCacheExec_settled (cmd : Cacheable) (hmget : cmd.cmd.isMGet = false)
    (hkey : cacheKey cmd.cmd = .ok (ck, cc)) (served : Served)
    (hserver : ServerAnswers
      [pipeOptInCmd optIn, multiCmd, pttlCmd ck, cmd.cmd, execCmd] served.replies) :
    (doCacheExec store optIn cache cmd.cmd ck cc served).Settled := by
  have hord : ∀ c ∈ [pipeOptInCmd optIn, multiCmd, pttlCmd ck, cmd.cmd, execCmd],
      c.noReply = false := by
    have hflagless : ∀ ss, (newCompleted ss).noReply = false := newCompleted_has (by decide)
    simp [optIn_noReply, cmd.replies, multiCmd, execCmd, pttlCmd, hflagless]
  unfold doCacheExec
  dsimp only
  match h : doMulti store (some cache)
      [pipeOptInCmd optIn, multiCmd, pttlCmd ck, cmd.cmd, execCmd] served with
  | (effs, .panicked p) => simp [CacheCall.Settled]
  | (effs, .waiting) => simp [CacheCall.Settled]
  | (effs, .returned resps) =>
    dsimp only
    split
    · rintro _ - k hk
      exact ⟨_, mem_append_right _ (mem_singleton.mpr rfl),
        (mem_singleton.mp hk).symm⟩
    · rename_i exec hexec
      obtain ⟨env, m, c, m', -, -, -, hm', heffs, -⟩ := doMulti_exec store hord
        (optIn_isOptIn optIn) hserver h
        (show _ = [pipeOptInCmd optIn] ++ multiCmd :: (([pttlCmd ck] ++ [cmd.cmd]) ++ [execCmd])
          from rfl) (by simp) (by simp)
        (by simp [plain_pttl, cmd.notMulti, cmd.notExec]) (error_eq_none_of_toArray hexec)
      obtain ⟨e, he, hsettles⟩ := execCommit_settles store env hmget hkey hm'
      split
      · rintro _ - k hk
        rw [mem_singleton.mp hk]
        exact ⟨e, heffs e he, hsettles⟩
      · simp [CacheCall.Settled]

end Settle

end Rueidis
