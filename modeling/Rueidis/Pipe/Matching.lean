import Rueidis.Pipe.Session

/-!
# The replies of the calls

The loop follows a session: its variables say how far the current call is answered, which
confirmations of a SUBSCRIBE are still to come, and whether the reply of a PING is to be skipped.  So
every call gets the answers of its own commands.
-/

namespace Rueidis

open List Session Effect LoopEvent

/-! ## Messages -/

variable {m : RedisMessage}

theorem IsError.ne_push (h : IsError m) : m.typ ≠ typePush := by
  rcases h.1 with h | h <;> rw [h] <;> decide

theorem IsPingReply.ne_push (h : IsPingReply m) : m.typ ≠ typePush := by
  rcases h with ⟨h, -⟩ | h
  · rw [h]
    decide
  · exact h.ne_push

namespace IsPong

variable {m : RedisMessage} (h : IsPong m)

include h

theorem recognised : (isUnsubReply m).1 = true := by
  unfold isUnsubReply
  split
  · rfl
  next hnot =>
    obtain h := h.resolve_right hnot
    simp [h]

theorem recognised_again : (isUnsubReply (isUnsubReply m).2).1 = true := by
  by_cases herr : m.typ = typeSimpleErr ∧ RefusesPing m.string
  · have hpong : (isUnsubReply m).2 =
        { m with typ := typeSimpleString }.setString (lit "PONG") :=
      congrArg Prod.snd (if_pos herr)
    rw [hpong]
    exact recognised (.inl rfl)
  · have hsame : (isUnsubReply m).2 = m := congrArg Prod.snd (if_neg herr)
    rw [hsame]
    exact recognised h

theorem ne_queued : m.string ≠ lit "QUEUED" := by
  intro hq
  rcases h with h | ⟨-, h⟩ <;> rw [hq] at h
  · exact absurd h (by decide)
  · exact absurd h (by unfold RefusesPing; decide)

end IsPong

theorem IsError.not_recognised (h : IsError m) (hping : ¬ RefusesPing m.string)
    (hpong : m.string ≠ lit "PONG") : (isUnsubReply m).1 = false := by
  have hvalues : m.values = [] := by
    unfold RedisMessage.values
    rw [h.2]
    rfl
  unfold isUnsubReply
  rw [if_neg fun he => hping he.2, hvalues]
  simpa using hpong

theorem IsSubscribed.notification (h : IsSubscribed m) : isNotification m.values = true := by
  obtain ⟨-, kind, channel, rest, reg, hvalues, hkind⟩ := h
  rw [hvalues]
  unfold isNotification
  dsimp only
  rw [hkind]

section Matching

variable {σ : Type} (cfg : PipeConfig) (store : CacheStore σ)

variable {cmds : List Completed} {t : Turn σ}

theorem IsSubscribed.handled (h : IsSubscribed m) (hooks : Hooks) (cache : Option σ) :
    (handlePush cfg store hooks cache m.values).unsubscribe = false := by
  obtain ⟨-, kind, channel, rest, reg, hvalues, hkind⟩ := h
  rw [hvalues]
  unfold handlePush
  dsimp only
  rw [hkind]
  rfl

theorem OutOfBand.unsubscribe (h : OutOfBand m) (hooks : Hooks) (cache : Option σ)
    (hn : isNotification m.values = true) :
    (handlePush cfg store hooks cache m.values).unsubscribe = true := by
  obtain ⟨hpush, hnot⟩ := h
  unfold isNotification at hn
  unfold handlePush
  split at hn
  next kind channel rest hvalues =>
    rw [hvalues]
    cases hkind : pushKind kind.string with
    | unsubscribed reg => rfl
    | subscribed reg => exact absurd ⟨hpush, kind, channel, rest, reg, hvalues, hkind⟩ hnot
    | invalidate | message | pmessage | smessage | other =>
      rw [hkind] at hn
      cases hn
  · cases hn

theorem handlePush_results (hooks : Hooks) (cache : Option σ) (values : List RedisMessage) :
    (handlePush cfg store hooks cache values).effects.filter isResult = [] := by
  have hnone : ∀ (b : Bool) (e : Effect), e.isResult = false →
      (orNone b e).filter isResult = [] := by
    intro b e he
    cases b
    · rfl
    · exact filter_cons_of_neg (by simp [he])
  rcases handlePush_cases cfg store hooks cache values with
    ⟨v, -, -, h⟩ | ⟨-, -, apply, unsub, happly, reg, h⟩ | ⟨-, -, ⟨reg, channel, m, h⟩ | h⟩
  all_goals rw [h]
  · show filter _ (_ ++ _ ++ _) = _
    rw [filter_append, filter_append, hnone _ _ rfl, hnone _ _ rfl, hnone _ _ rfl]
    rfl
  · unfold handleSubscription
    split
    · rcases happly with rfl | rfl <;> exact hnone _ _ rfl
    · rfl
  · exact hnone _ _ rfl
  · rfl

/-! ## The current call -/

variable {cmd : Completed} {st : ReadLoop σ} {owed : List (Completed × Place)} {msg : RedisMessage}
  {effs : List Effect} {r : Bytes}

theorem placed_drop {batch : Bool} {ch ff : Nat} (h : cmds[ff]? = some cmd) :
    (placed cmds batch ch).drop ff =
      (cmd, ⟨ch, if batch then some ff else none, ff + 1 = cmds.length⟩) ::
        (placed cmds batch ch).drop (ff + 1) := by
  obtain ⟨hlt, hcmd⟩ := List.getElem?_eq_some_iff.mp h
  have hlen : ff < (placed cmds batch ch).length := Nat.lt_of_lt_of_eq hlt List.length_mapIdx.symm
  rw [List.drop_eq_getElem_cons hlen]
  simp only [placed, List.getElem_mapIdx, hcmd]

theorem commit_uncached (h : Uncached cmds) {ff : Nat} (hff : ff < cmds.length) (env : Env)
    (cache : Option σ) (m : RedisMessage) :
    commit store env cache cmds ff m = ⟨cache, [], .ok m⟩ := by
  have hcmd : cmds[ff]? = some cmds[ff] := getElem?_eq_getElem hff
  have hstatic : ¬ (0 < ff ∧ cmds[ff].isStaticTTL = true) := by
    rintro ⟨hpos, hs⟩
    have hmem : cmds[ff] ∈ cmds.tail := by
      apply mem_of_getElem? (i := ff - 1)
      rw [getElem?_tail, Nat.sub_add_cancel hpos, hcmd]
    rw [h.staticTTL _ hmem] at hs
    cases hs
  unfold commit
  rw [hcmd]
  dsimp only
  rw [if_neg hstatic, if_neg]
  rintro ⟨-, -, hopt⟩
  rw [h.optIn] at hopt
  cases hopt

theorem uncached_nil : Uncached [] := ⟨by decide, nofun⟩

structure Ahead (st : ReadLoop σ) (owed : List (Completed × Place)) : Prop where
  ff : st.ff ≤ st.multi.length
  uncached : Uncached st.multi
  queue : ∀ call ∈ st.queue, call.Plain
  owed : owed = (placed st.multi st.batch st.ch).drop st.ff ++ st.queue.flatMap Call.commands

namespace Ahead

variable {st : ReadLoop σ} {owed : List (Completed × Place)} {call : Call}

variable (h : Ahead st owed)

include h

theorem written (hcall : call.Plain) :
    Ahead { st with queue := st.queue ++ [call] } (owed ++ call.commands) :=
  { h with
    queue := forall_mem_append.mpr ⟨h.queue, forall_mem_singleton.mpr hcall⟩
    owed := by rw [h.owed, flatMap_append, flatMap_singleton, append_assoc] }

theorem take (hff : st.ff = st.multi.length) {queue : List Call}
    (hqueue : st.queue = call :: queue) : Ahead (st.take call queue) owed := by
  have howed := h.owed
  have hdone : (placed st.multi st.batch st.ch).drop st.ff = [] :=
    drop_of_length_le (Nat.le_of_eq (length_mapIdx.trans hff.symm))
  rw [hdone, hqueue, nil_append, flatMap_cons] at howed
  obtain ⟨hcall, hrest⟩ := forall_mem_cons.mp (hqueue ▸ h.queue)
  cases call <;> exact ⟨Nat.zero_le _, hcall.toUncached, hrest, howed⟩

theorem arrived (r : Bytes) (cache : Option σ) (prply unsub : Bool) :
    Ahead { st with r := r, cache := cache, prply := prply, unsub := unsub } owed := { h with }

theorem current (hcmd : st.multi[st.ff]? = some cmd) :
    ∃ rest, owed = (cmd, ⟨st.ch, if st.batch then some st.ff else none,
        st.ff + 1 = st.multi.length⟩) :: rest ∧ Ahead { st with ff := st.ff + 1 } rest := by
  have howed := h.owed
  rw [placed_drop hcmd, cons_append] at howed
  refine ⟨_, howed, ?_, h.uncached, h.queue, rfl⟩
  exact (List.getElem?_eq_some_iff.mp hcmd).1

end Ahead

theorem record_gets {p : Completed × Place} (h : Ahead st (p :: owed))
    (hcmd : st.multi[st.ff]? = some p.1) (m : RedisMessage) (effs : List Effect) :
    record st m effs = ⟨.next, { st with ff := st.ff + 1 }, effs ++ p.2.gets m⟩ ∧
      Ahead { st with ff := st.ff + 1 } owed := by
  obtain ⟨rest, heq, hahead⟩ := h.current hcmd
  obtain ⟨hp, rfl⟩ := cons.inj heq
  refine ⟨?_, hahead⟩
  rw [hp]
  unfold record Place.gets
  cases hb : st.batch <;> by_cases hl : st.ff + 1 = st.multi.length <;> simp [hl]

def idle (st : ReadLoop σ) (msg : RedisMessage) (effs : List Effect) : Turn σ :=
  if st.unsub then ⟨.next, { st with prply := false, unsub := false }, effs⟩
  else if st.skipUnsubReply ∧ (isUnsubReply msg).1 then
    ⟨.next, { st with skipUnsubReply := false }, effs⟩
  else ⟨.panic protocolbug, st, effs⟩

structure SameOutside (st st' : ReadLoop σ) : Prop where
  r : st'.r = st.r
  skip : st'.skip = st.skip
  prply : st'.prply = st.prply
  unsub : st'.unsub = st.unsub
  skipUnsubReply : st'.skipUnsubReply = st.skipUnsubReply

inductive Turned (st : ReadLoop σ) (owed : List (Completed × Place)) (msg : RedisMessage)
    (effs : List Effect) : Turn σ → Prop where
  | idle (howed : owed = []) (st' : ReadLoop σ) (hsame : SameOutside st st') (h : Ahead st' owed) :
      Turned st owed msg effs (idle st' msg effs)
  | current (p : Completed × Place) (rest : List (Completed × Place)) (howed : owed = p :: rest)
      (st' : ReadLoop σ) (hsame : SameOutside st st') (h : Ahead st' owed)
      (hcmd : st'.multi[st'.ff]? = some p.1) : Turned st owed msg effs (assign st' msg effs)

theorem SameOutside.take (st : ReadLoop σ) (call : Call) (queue : List Call) :
    SameOutside st (st.take call queue) := by
  cases call <;> exact ⟨rfl, rfl, rfl, rfl, rfl⟩

/-- The notice that a subscription has ended is dropped, though the next call may have been
taken. -/
theorem Turned.ended (h : Turned st owed msg effs t) (hprply : st.prply = true)
    (hunsub : st.unsub = true) : ∃ st', SameOutside st st' ∧ Ahead st' owed ∧
      t = ⟨.next, { st' with prply := false, unsub := false }, effs⟩ := by
  cases h with
  | idle howed st' hsame h => exact ⟨st', hsame, h, if_pos (hsame.unsub.trans hunsub)⟩
  | current p rest howed st' hsame h hcmd =>
    exact ⟨st', hsame, h, if_pos ⟨hsame.prply.trans hprply, hsame.unsub.trans hunsub⟩⟩

theorem Ahead.turned (h : Ahead st owed) (env : Env) (msg : RedisMessage) (effs : List Effect) :
    Turned st owed msg effs (dispatch store env st msg effs) := by
  unfold dispatch
  by_cases hff : st.ff = st.multi.length
  · rw [if_pos hff]
    cases hqueue : st.queue with
    | nil =>
      have howed : owed = [] := by simp [h.owed, hqueue, hff, placed]
      subst howed
      exact .idle rfl { st with ff := 0, multi := [], batch := false, queue := [] }
        ⟨rfl, rfl, rfl, rfl, rfl⟩ ⟨Nat.le_refl _, uncached_nil, nofun, rfl⟩
    | cons call queue =>
      have htake := h.take hff hqueue
      have hcall : call.Plain := h.queue call (hqueue ▸ mem_cons_self)
      -- the call is not empty, so its first command is the next one
      have hfirst : ∃ cmd, (st.take call queue).multi[(st.take call queue).ff]? = some cmd := by
        cases call with
        | one cmd ch => exact ⟨cmd, rfl⟩
        | multi cmds ch =>
          cases cmds with
          | nil => exact absurd rfl hcall.nonempty
          | cons cmd cmds => exact ⟨cmd, rfl⟩
      obtain ⟨cmd, hcmd⟩ := hfirst
      obtain ⟨rest, howed, -⟩ := htake.current hcmd
      exact .current _ rest howed _ (.take st call queue) htake hcmd
  · rw [if_neg hff]
    have hlt : st.ff < st.multi.length := Nat.lt_of_le_of_ne h.ff hff
    rw [commit_uncached store h.uncached hlt]
    dsimp only
    rw [append_nil]
    have hcmd : st.multi[st.ff]? = some st.multi[st.ff] := getElem?_eq_getElem hlt
    obtain ⟨rest, howed, -⟩ := h.current hcmd
    exact .current _ rest howed st ⟨rfl, rfl, rfl, rfl, rfl⟩ h hcmd

/-! ## Who gets a message -/

theorem assign_confirmed (hpush : st.prply = true) (hunsub : st.unsub = false)
    (hcmd : st.multi[st.ff]? = some cmd) (hno : cmd.noReply = true) (msg : RedisMessage)
    (effs : List Effect) : assign st msg effs = record
      { st with prply := false, unsub := false, skip := cmd.commands.length - 2 } {} effs := by
  simp [assign, hpush, hunsub, hcmd, hno]

theorem assign_pong (hpush : st.prply = false) (hskip : st.skipUnsubReply = true)
    (hcmd : st.multi[st.ff]? = some cmd) (hpong : IsPong msg) (effs : List Effect) :
    assign st msg effs = ⟨.next, { st with skipUnsubReply := false }, effs⟩ := by
  have hrec := hpong.recognised
  have hagain : (isUnsubReply (if cmd.isUnsub then (isUnsubReply msg).2 else msg)).1 = true := by
    split
    · exact hpong.recognised_again
    · exact hrec
  unfold assign
  rw [if_neg (by simp [hpush]), hcmd]
  dsimp only
  rw [if_neg (by simp [hpush]), if_neg (fun h => hpong.ne_queued h.2), if_neg (by simp [hrec]),
    if_pos hskip, if_pos hagain]

/-- The reply of a PING is skipped, whether the next call is there already or not. -/
theorem Turned.pong (h : Turned st owed msg effs t) (hprply : st.prply = false)
    (hunsub : st.unsub = false) (hskip : st.skipUnsubReply = true) (hpong : IsPong msg) :
    ∃ st', SameOutside st st' ∧ Ahead st' owed ∧
      t = ⟨.next, { st' with skipUnsubReply := false }, effs⟩ := by
  cases h with
  | idle howed st' hsame h =>
    refine ⟨st', hsame, h, ?_⟩
    unfold Rueidis.idle
    rw [if_neg (by simp [hsame.unsub, hunsub]),
      if_pos ⟨hsame.skipUnsubReply.trans hskip, hpong.recognised⟩]
  | current p rest howed st' hsame h hcmd =>
    refine ⟨st', hsame, h, ?_⟩
    exact assign_pong (hsame.prply.trans hprply) (hsame.skipUnsubReply.trans hskip) hcmd hpong effs

variable (hpush : st.prply = false)

include hpush

theorem assign_unsubscribed (hskip : st.skipUnsubReply = false) (hcmd : st.multi[st.ff]? = some cmd)
    (hunsub : cmd.isUnsub = true) (hpong : IsPong msg) (effs : List Effect) :
    assign st msg effs = record st (isUnsubReply msg).2 effs := by
  have hqueued := hpong.ne_queued
  have hrec := hpong.recognised
  simp [assign, hpush, hskip, hcmd, hunsub, hqueued, hrec]

theorem assign_refused (hskip : st.skipUnsubReply = false) (hcmd : st.multi[st.ff]? = some cmd)
    (hunsub : cmd.isUnsub = false) (hqueued : msg.string ≠ lit "QUEUED") (effs : List Effect) :
    assign st msg effs = record st msg effs := by
  simp [assign, hpush, hskip, hcmd, hunsub, hqueued]

theorem assign_notUnsubscribed (hcmd : st.multi[st.ff]? = some cmd) (hunsub : cmd.isUnsub = true)
    (hqueued : msg.string ≠ lit "QUEUED") (hrec : (isUnsubReply msg).1 = false)
    (effs : List Effect) :
    assign st msg effs = record { st with skipUnsubReply := true } msg effs := by
  simp [assign, hpush, hcmd, hunsub, hqueued, hrec]

omit hpush

theorem readStep_reply (hver : cfg.version ≠ 6) (hresp3 : cfg.r2ps = false)
    (hread : readNextMessage st.r = (.ok m, r)) (hm : m.typ ≠ typePush) (env : Env) :
    readStep cfg store env st = dispatch store env { st with r := r } m [] := by
  have hpush : isPush cfg m = false := by
    unfold isPush
    rw [hresp3, beq_eq_false_iff_ne.mpr hm]
    rfl
  unfold readStep
  rw [hread]
  dsimp only
  rw [if_neg (by simp [hpush]), if_neg (fun h => hver h.1)]

theorem readStep_push (hread : readNextMessage st.r = (.ok m, r)) (hm : m.typ = typePush)
    (env : Env) : readStep cfg store env st =
      let p := handlePush cfg store env.hooks st.cache m.values
      if isNotification m.values = false then
        ⟨.next, { st with r := r, cache := p.cache, prply := false, unsub := false }, p.effects⟩
      else if 0 < st.skip then
        ⟨.next, { st with
          r := r, cache := p.cache, skip := st.skip - 1, prply := false, unsub := false }, p.effects⟩
      else dispatch store env
        { st with r := r, cache := p.cache, prply := true, unsub := p.unsubscribe } m p.effects := by
  have hpush : isPush cfg m = true := by
    unfold isPush
    rw [hm]
    rfl
  have hreply := handlePush_reply cfg store env.hooks st.cache m.values
  have hunsub := handlePush_unsubscribe cfg store env.hooks st.cache m.values
  unfold readStep
  rw [hread]
  dsimp only
  rw [if_pos hpush]
  cases hn : isNotification m.values with
  | false =>
    rw [hn] at hreply
    rw [hreply, hunsub hreply]
    rfl
  | true =>
    rw [hn] at hreply
    rw [hreply]
    rfl

/-! ## Sessions -/

inductive Due : Int → Bool → List RedisMessage → Prop where
  | confirmations (ms : List RedisMessage) (h : ∀ m ∈ ms, IsSubscribed m) : Due ms.length false ms
  | pong (m : RedisMessage) (hpong : IsPong m) (hpush : m.typ ≠ typePush) : Due 0 true [m]

structure Follows (st : ReadLoop σ) (owed : List (Completed × Place)) (due : List RedisMessage) :
    Prop extends Ahead st owed where
  prply : st.prply = false
  unsub : st.unsub = false
  due : Due st.skip st.skipUnsubReply due

structure Keeps (t : Turn σ) (r : Bytes) (owed : List (Completed × Place))
    (due : List RedisMessage) (effs : List Effect) : Prop where
  flow : t.flow = .next
  r : t.st.r = r
  follows : Follows t.st owed due
  results : t.effects.filter isResult = effs

theorem Place.gets_filter (p : Place) (m : RedisMessage) :
    (p.gets m).filter isResult = p.gets m := by
  unfold Place.gets
  cases p.slot <;> cases p.last <;> rfl

namespace Follows

variable {st : ReadLoop σ} {owed : List (Completed × Place)} {due : List RedisMessage}

theorem pushed (h : Follows st owed due) (hread : readNextMessage st.r = (.ok m, r))
    (hm : OutOfBand m) (hdue : ∀ x ∈ due, ¬ IsSubscribed x) (env : Env) :
    Keeps (readStep cfg store env st) r owed due [] := by
  have hresults := handlePush_results cfg store env.hooks st.cache m.values
  rw [readStep_push cfg store hread hm.1]
  by_cases hn : isNotification m.values = false
  · -- a message or an invalidation is no reply
    rw [if_pos hn]
    exact ⟨rfl, rfl, ⟨{ h.toAhead with }, rfl, rfl, h.due⟩, hresults⟩
  · rw [if_neg hn]
    rw [Bool.not_eq_false] at hn
    have hunsub := hm.unsubscribe cfg store env.hooks st.cache hn
    have hskip : ¬ 0 < st.skip := by
      have := h.due
      generalize st.skip = skip, st.skipUnsubReply = b at this
      cases this with
      | confirmations ms hsub =>
        cases due with
        | nil => decide
        | cons x xs => exact absurd (hsub x mem_cons_self) (hdue x mem_cons_self)
      | pong => decide
    rw [if_neg hskip]
    obtain ⟨st', hsame, h', heq⟩ := ((h.toAhead.arrived r _ _ _).turned store env m _).ended rfl hunsub
    rw [heq]
    refine ⟨rfl, hsame.r, ⟨{ h' with }, rfl, rfl, ?_⟩, hresults⟩
    rw [hsame.skip, hsame.skipUnsubReply]
    exact h.due

theorem continued (h : Follows st owed (m :: due)) (hver : cfg.version ≠ 6)
    (hresp3 : cfg.r2ps = false) (hread : readNextMessage st.r = (.ok m, r)) (env : Env) :
    Keeps (readStep cfg store env st) r owed due [] := by
  have hdue := h.due
  generalize hskip : st.skip = skip, hunsub : st.skipUnsubReply = b at hdue
  cases hdue with
  | confirmations ms hsub =>
    have hm := hsub m mem_cons_self
    have hpos : 0 < st.skip := by
      rw [hskip, length_cons]
      omega
    rw [readStep_push cfg store hread hm.1]
    rw [if_neg (by simp [hm.notification]), if_pos hpos]
    refine ⟨rfl, rfl, ⟨{ h.toAhead with }, rfl, rfl, ?_⟩,
      handlePush_results cfg store env.hooks st.cache m.values⟩
    have hleft : st.skip - 1 = due.length := by
      rw [hskip, length_cons]
      omega
    rw [hleft, hunsub]
    exact .confirmations due fun x hx => hsub x (mem_cons_of_mem _ hx)
  | pong _ hpong hpush =>
    -- the next call may be there already, or not yet
    rw [readStep_reply cfg store hver hresp3 hread hpush]
    obtain ⟨st', hsame, h', heq⟩ := ((h.toAhead.arrived r _ _ _).turned store env m []).pong
      h.prply h.unsub hunsub hpong
    rw [heq]
    refine ⟨rfl, hsame.r, ⟨{ h' with }, hsame.prply.trans h.prply, hsame.unsub.trans h.unsub, ?_⟩, rfl⟩
    rw [hsame.skip]
    rw [hskip]
    exact .confirmations [] nofun

variable {place : Place}

theorem reply {owed' : List (Completed × Place)} {due' : List RedisMessage}
    (h : Follows st ((cmd, place) :: owed) due) (hver : cfg.version ≠ 6) (hresp3 : cfg.r2ps = false)
    (hread : readNextMessage st.r = (.ok m, r)) (hm : m.typ ≠ typePush) (env : Env)
    (hassign : ∀ st' : ReadLoop σ, Follows st' ((cmd, place) :: owed) due → st'.r = r →
      st'.multi[st'.ff]? = some cmd → Keeps (assign st' m []) r owed' due' effs) :
    Keeps (readStep cfg store env st) r owed' due' effs := by
  rw [readStep_reply cfg store hver hresp3 hread hm]
  have hturn := (h.toAhead.arrived r st.cache st.prply st.unsub).turned store env m []
  generalize dispatch store env _ m _ = t at hturn
  cases hturn with
  | idle howed => cases howed
  | current p rest howed st' hsame h' hcmd =>
    cases howed
    apply hassign st' ⟨h', hsame.prply.trans h.prply, hsame.unsub.trans h.unsub, ?_⟩ hsame.r hcmd
    rw [hsame.skip, hsame.skipUnsubReply]
    exact h.due

theorem record (h : Ahead st ((cmd, place) :: owed)) (hprply : st.prply = false)
    (hunsub : st.unsub = false) (hdue : Due st.skip st.skipUnsubReply due)
    (hcmd : st.multi[st.ff]? = some cmd) (m : RedisMessage)
    (heffs : effs.filter isResult = []) :
    Keeps (Rueidis.record st m effs) st.r owed due (place.gets m) := by
  obtain ⟨heq, hahead⟩ := record_gets h hcmd m effs
  rw [heq]
  refine ⟨rfl, rfl, ⟨hahead, hprply, hunsub, hdue⟩, ?_⟩
  rw [filter_append, heffs, place.gets_filter, nil_append]

theorem nothing_due (h : Follows st owed []) : st.skip = 0 ∧ st.skipUnsubReply = false := by
  have hdue := h.due
  generalize st.skip = skip, st.skipUnsubReply = b at hdue
  cases hdue
  exact ⟨rfl, rfl⟩

variable (h : Follows st ((cmd, place) :: owed) [])

include h

theorem confirmed (hno : cmd.noReply = true) {others : List RedisMessage}
    (hlen : cmd.commands.length = others.length + 2) (hall : ∀ x ∈ m :: others, IsSubscribed x)
    (hread : readNextMessage st.r = (.ok m, r)) (env : Env) :
    Keeps (readStep cfg store env st) r owed others (place.gets {}) := by
  obtain ⟨hzero, hclear⟩ := h.nothing_due
  have hm := hall m mem_cons_self
  have hunsub := hm.handled cfg store env.hooks st.cache
  have hresults := handlePush_results cfg store env.hooks st.cache m.values
  rw [readStep_push cfg store hread hm.1]
  rw [if_neg (by simp [hm.notification]), if_neg (by simp [hzero])]
  have hturn := (h.toAhead.arrived r (handlePush cfg store env.hooks st.cache m.values).cache true
    (handlePush cfg store env.hooks st.cache m.values).unsubscribe).turned store env m
      (handlePush cfg store env.hooks st.cache m.values).effects
  generalize dispatch store env _ m _ = t at hturn
  cases hturn with
  | idle howed => cases howed
  | current p rest howed st' hsame h' hcmd =>
    cases howed
    rw [assign_confirmed hsame.prply (hsame.unsub.trans hunsub) hcmd hno]
    have hskip : (cmd.commands.length : Int) - 2 = others.length := by
      rw [hlen]
      omega
    have hdue : Due ((cmd.commands.length : Int) - 2) st'.skipUnsubReply others := by
      rw [hskip, hsame.skipUnsubReply]
      rw [hclear]
      exact .confirmations others fun x hx => hall x (mem_cons_of_mem _ hx)
    have hfirst : Ahead { st' with
        prply := false, unsub := false, skip := cmd.commands.length - 2 } _ := { h' with }
    exact hsame.r ▸ record hfirst rfl rfl hdue hcmd {} hresults

theorem recorded (hver : cfg.version ≠ 6) (hresp3 : cfg.r2ps = false) {x : RedisMessage}
    (hread : readNextMessage st.r = (.ok m, r)) (hm : m.typ ≠ typePush) (env : Env)
    (hassign : ∀ st' : ReadLoop σ, st'.prply = false → st'.skipUnsubReply = false →
      st'.multi[st'.ff]? = some cmd → assign st' m [] = Rueidis.record st' x []) :
    Keeps (readStep cfg store env st) r owed [] (place.gets x) := by
  refine h.reply cfg store hver hresp3 hread hm env ?_
  intro st' h' hr hcmd
  rw [hassign st' h'.prply h'.nothing_due.2 hcmd, ← hr]
  exact record h'.toAhead h'.prply h'.unsub h'.due hcmd x rfl

theorem answered (hver : cfg.version ≠ 6) (hresp3 : cfg.r2ps = false) {a : Answer}
    (ha : a.Answers cmd) (hrec : a.Recognised) (hread : readNextMessage st.r = (.ok a.first, r))
    (env : Env) : Keeps (readStep cfg store env st) r owed a.rest (place.gets a.result) := by
  cases a <;> dsimp only [Answer.first, Answer.rest, Answer.result] at hread ⊢
  case replied m =>
    exact h.recorded cfg store hver hresp3 hread ha.2 env
      fun _ hp hs hcmd => assign_ordinary hp hs hcmd ha.1 m []
  case notSubscribed m =>
    obtain ⟨-, hsub, -, herr⟩ := ha
    exact h.recorded cfg store hver hresp3 hread herr.ne_push env
      fun _ hp hs hcmd => assign_refused hp hs hcmd hsub hrec []
  case unsubscribed pong =>
    exact h.recorded cfg store hver hresp3 hread ha.2.ne_push env
      fun _ hp hs hcmd => assign_unsubscribed hp hs hcmd ha.1 hrec []
  case notUnsubscribed m pong =>
    obtain ⟨hunsub, herr, hping, hreply⟩ := ha
    obtain ⟨hqueued, hpong, hlast⟩ := hrec
    refine h.reply cfg store hver hresp3 hread herr.ne_push env ?_
    intro st' h' hr hcmd
    rw [assign_notUnsubscribed h'.prply hcmd hunsub hqueued (herr.not_recognised hping hpong), ← hr]
    have hdue : Due st'.skip true [pong] := by
      rw [h'.nothing_due.1]
      exact .pong pong hlast hreply.ne_push
    have hskips : Ahead { st' with skipUnsubReply := true } _ := { h'.toAhead with }
    exact record hskips h'.prply h'.unsub hdue hcmd m rfl
  case subscribed m others =>
    obtain ⟨hno, -, hlen, hall⟩ := ha
    exact h.confirmed cfg store hno hlen hall hread env

end Follows

theorem Follows.play {due : List RedisMessage} {evs : List (LoopEvent σ)}
    {given : List (Place × RedisMessage)} (h : Follows st owed due) (hver : cfg.version ≠ 6)
    (hresp3 : cfg.r2ps = false) (hsession : Session Answer.Recognised owed due evs given)
    (hreads : Reads st.r (evs.filterMap message)) : (play cfg store st evs).flow = .next ∧
      (play cfg store st evs).effects.filter isResult = given.flatMap fun g => g.1.gets g.2 := by
  -- induction on the session; a turn of the loop is one of the three lemmas above
  have hturn : ∀ {st : ReadLoop σ} {env : Env} {m : RedisMessage} {r : Bytes} {owed due effs}
      {evs : List (LoopEvent σ)} {effs' : List Effect},
      Keeps (readStep cfg store env st) r owed due effs →
      ((Rueidis.play cfg store (readStep cfg store env st).st evs).flow = .next ∧
        (Rueidis.play cfg store (readStep cfg store env st).st evs).effects.filter isResult =
          effs') →
      (Rueidis.play cfg store st (.arrived env m :: evs)).flow = .next ∧
        (Rueidis.play cfg store st (.arrived env m :: evs)).effects.filter isResult =
          effs ++ effs' := by
    intro st env m r owed due effs evs effs' hkeeps hrest
    unfold Rueidis.play
    dsimp only
    rw [hkeeps.flow]
    refine ⟨hrest.1, ?_⟩
    rw [filter_append, hkeeps.results, hrest.2]
  induction hsession generalizing st with
  | ends owed due => exact ⟨rfl, rfl⟩
  | written call hcall _ ih => exact ih { h with toAhead := h.toAhead.written hcall } hreads
  | cached c _ ih =>
    have hcached : Follows { st with cache := st.cache.map fun _ => c } _ _ :=
      { h with toAhead := { h.toAhead with } }
    exact ih hcached hreads
  | pushed env m hm hdue _ ih =>
    obtain - | ⟨hread, hreads⟩ := hreads
    have hkeeps := h.pushed cfg store hread hm hdue env
    exact hturn hkeeps (ih hkeeps.follows (hkeeps.r ▸ hreads))
  | answered env cmd place a ha hok _ ih =>
    obtain - | ⟨hread, hreads⟩ := hreads
    have hkeeps := h.answered cfg store hver hresp3 ha hok hread env
    exact hturn hkeeps (ih hkeeps.follows (hkeeps.r ▸ hreads))
  | continued env m _ ih =>
    obtain - | ⟨hread, hreads⟩ := hreads
    have hkeeps := h.continued cfg store hver hresp3 hread env
    exact hturn hkeeps (ih hkeeps.follows (hkeeps.r ▸ hreads))

/-- On a RESP3 connection with a server of another version than 6, in every session whose answers
the loop can tell apart, no turn of the loop fails or panics, and the results that the callers get
are the answers of their own commands, in order. -/
theorem readLoop_matches (hver : cfg.version ≠ 6) (hresp3 : cfg.r2ps = false) (cache : Option σ)
    (r : Bytes) (evs : List (LoopEvent σ)) (given : List (Place × RedisMessage))
    (hsession : Session Answer.Recognised [] [] evs given)
    (hreads : Reads r (evs.filterMap message)) :
    (play cfg store { r := r, cache := cache } evs).flow = .next ∧
      (play cfg store { r := r, cache := cache } evs).effects.filter isResult =
        given.flatMap fun g => g.1.gets g.2 := by
  have hnew : Follows ({ r := r, cache := cache } : ReadLoop σ) [] [] :=
    ⟨⟨Nat.le_refl _, uncached_nil, nofun, rfl⟩, rfl, rfl, .confirmations [] nofun⟩
  exact hnew.play cfg store hver hresp3 hsession hreads

end Matching

def noCache : CacheStore Unit := ⟨fun s _ _ _ => (s, 0), fun s _ _ _ => s, fun s _ => s⟩

def subscribeCmd (channels : List Bytes) : Completed :=
  { newCompleted (lit "SUBSCRIBE" :: channels) with cf := noRetTag }

def unsubscribeCmd (channels : List Bytes) : Completed :=
  { newCompleted (lit "UNSUBSCRIBE" :: channels) with cf := unsubTag }

def textMessage (typ : UInt8) (s : Bytes) : RedisMessage :=
  ({ typ := typ } : RedisMessage).setString s

def notice (kind channel : Bytes) (count : Int64) : RedisMessage :=
  ({ typ := typePush } : RedisMessage).setValues [textMessage typeSimpleString kind,
    textMessage typeSimpleString channel, { typ := typeInteger, intlen := count }]

theorem notice_outOfBand {kind : Bytes} (reg : Registry) (hkind : pushKind kind = .unsubscribed reg)
    (channel : Bytes) (count : Int64) : OutOfBand (notice kind channel count) := by
  refine ⟨rfl, fun ⟨_, _, _, _, reg', hvalues, hkind'⟩ => ?_⟩
  cases hvalues
  cases hkind.symm.trans hkind'

theorem readLoop_matches_refused :
    let refusal := textMessage typeSimpleErr (lit "NOPERM no")
    let value := textMessage typeBlobString (lit "v")
    let evs : List (LoopEvent Unit) := [
      .written (.multi [subscribeCmd [lit "a", lit "b"], unsubscribeCmd [lit "c"]] 1),
      .arrived {} (notice (lit "subscribe") (lit "a") 1),
      .written (.one (newCompleted [lit "GET", lit "k"]) 2),
      .arrived {} (notice (lit "subscribe") (lit "b") 2), .arrived {} refusal,
      .arrived {} (notice (lit "sunsubscribe") (lit "d") 0),
      .arrived {} (textMessage typeSimpleString (lit "PONG")), .arrived {} value]
    ∃ r, Reads r (evs.filterMap message) ∧
      (play {} noCache { r := r } evs).flow = .next ∧
      (play {} noCache { r := r } evs).effects.filter isResult =
        [.fulfill 1 0 (newResult {} none), .fulfill 1 1 (newResult refusal none),
          .deliver 1 (newResult refusal none), .deliver 2 (newResult value none)] := by
  intro refusal value evs
  have hreads : Reads (lit (">3\r\n+subscribe\r\n+a\r\n:1\r\n>3\r\n+subscribe\r\n+b\r\n:2\r\n" ++
      "-NOPERM no\r\n>3\r\n+sunsubscribe\r\n+d\r\n:0\r\n+PONG\r\n$1\r\nv\r\n"))
      (evs.filterMap message) :=
    .cons rfl (.cons rfl (.cons rfl (.cons rfl (.cons rfl (.cons rfl (.nil _))))))
  have hsubscribed : ∀ channel count, IsSubscribed (notice (lit "subscribe") channel count) :=
    fun _ _ => ⟨rfl, textMessage typeSimpleString (lit "subscribe"), _, _, .nsubs, rfl, by decide⟩
  have hsession : Session Answer.Recognised [] [] evs
      [(⟨1, some 0, false⟩, {}), (⟨1, some 1, true⟩, refusal), (⟨2, none, true⟩, value)] := by
    apply written _ ⟨⟨by decide, by decide⟩, by decide⟩
    apply answered {} _ _ (.subscribed (notice (lit "subscribe") (lit "a") 1)
      [notice (lit "subscribe") (lit "b") 2])
    · exact ⟨by decide, by decide, by decide, by simp [hsubscribed]⟩
    · trivial
    apply written _ ⟨⟨by decide, by decide⟩, by decide⟩
    apply continued
    apply answered {} _ _ (.notUnsubscribed refusal (textMessage typeSimpleString (lit "PONG")))
    · exact ⟨by decide, ⟨.inl rfl, rfl⟩, by unfold RefusesPing; decide, .inl ⟨rfl, rfl⟩⟩
    · exact ⟨by decide, by decide, .inl rfl⟩
    apply pushed
    · exact notice_outOfBand .ssubs (by decide) _ _
    · exact forall_mem_singleton.mpr fun hsub => absurd hsub.1 (by decide)
    apply continued
    apply answered {} _ _ (.replied value)
    · exact ⟨by decide, by decide⟩
    · trivial
    exact .ends _ _
  have hmatch := readLoop_matches {} noCache (by decide) rfl none _ evs _ hsession hreads
  exact ⟨_, hreads, hmatch⟩

/-- A server that cannot save its data refuses also a PING.  The loop takes this refusal for the
error of the UNSUBSCRIBE, and then the reply to the next command for that of a PING. -/
theorem refused_ping_panics :
    let refusal := textMessage typeSimpleErr (lit "MISCONF no")
    let value := textMessage typeBlobString (lit "v")
    let evs : List (LoopEvent Unit) := [.written (.one (unsubscribeCmd [lit "c"]) 1),
      .written (.one (newCompleted [lit "GET", lit "k"]) 2),
      .arrived {} (notice (lit "unsubscribe") (lit "c") 0), .arrived {} refusal,
      .arrived {} value]
    ∃ r, Session (fun _ => True) [] [] evs [(⟨1, none, true⟩, refusal), (⟨2, none, true⟩, value)] ∧
      Reads r (evs.filterMap message) ∧
      (play {} noCache { r := r } evs).flow = .panic protocolbug := by
  intro refusal value evs
  refine ⟨lit ">3\r\n+unsubscribe\r\n+c\r\n:0\r\n-MISCONF no\r\n$1\r\nv\r\n", ?_, ?_, ?_⟩
  · apply written _ ⟨⟨by decide, by decide⟩, by decide⟩
    apply written _ ⟨⟨by decide, by decide⟩, by decide⟩
    apply pushed
    · exact notice_outOfBand .nsubs (by decide) _ _
    · exact nofun
    apply answered {} _ _ (.unsubscribed refusal)
    · exact ⟨by decide, .inr ⟨.inl rfl, rfl⟩⟩
    · trivial
    apply answered {} _ _ (.replied value)
    · exact ⟨by decide, by decide⟩
    · trivial
    exact .ends _ _
  · exact .cons rfl (.cons rfl (.cons rfl (.nil _)))
  · rfl

end Rueidis
