import Rueidis.Pipe.Push
import Rueidis.Resp.Read

/-!
# The read loop of a connection

One turn of `_backgroundRead` as a function on the loop's local variables, the queue of written
calls, the unread bytes and the client side cache.  What a turn does elsewhere is in its effects.
-/

namespace Rueidis

/-- A call whose commands were written: one command, or a batch with its slice of results.  The
channel is named by a number. -/
inductive Call where
  | one (cmd : Completed) (ch : Nat)
  | multi (cmds : List Completed) (ch : Nat)
deriving DecidableEq, Repr

def protocolbug : Panic := ⟨"protocol bug, message handled out of order"⟩
def multiexecsub : Panic := ⟨"SUBSCRIBE/UNSUBSCRIBE are not allowed in MULTI/EXEC block"⟩

/-- The variables of the loop; `batch` says that `resps` is not nil. -/
structure ReadLoop (σ : Type) where
  r : Bytes := []
  queue : List Call := []
  cache : Option σ := none
  multi : List Completed := []
  batch : Bool := false
  ch : Nat := 0
  ff : Nat := 0
  skip : Int := 0
  prply : Bool := false
  unsub : Bool := false
  skipUnsubReply : Bool := false
deriving DecidableEq, Repr

/-- What a turn sees of its surroundings: the clock in nanoseconds, the hooks that are set, and
whether the pipe has expired. -/
structure Env where
  now : Int := 0
  hooks : Hooks := {}
  expired : Bool := false

inductive Flow where
  | next
  | exit (err : Err)
  | panic (p : Panic)
deriving DecidableEq, Repr

structure Turn (σ : Type) where
  flow : Flow
  st : ReadLoop σ
  effects : List Effect
deriving DecidableEq, Repr

def ReadErr.toErr : ReadErr → Err
  | .eof => .other "EOF"
  | .unexpectedEOF => .other "unexpected EOF"
  | .bufferFull => .other "bufio: buffer full"
  | .negativeCount => .other "bufio: negative count"
  | .errChunked => .other "unbounded redis message"
  | .errOldNull => .other "RESP2 null"
  | .new text => .other text
  | .panic p => .other p.text
  | .outOfFuel => .other "out of fuel"

def containsBytes (s sub : Bytes) : Bool := s.tails.any (sub.isPrefixOf ·)

/-- The reply to the PING behind an UNSUBSCRIBE; an error that a PING can get is turned into
PONG. -/
def isUnsubReply (msg : RedisMessage) : Bool × RedisMessage :=
  if msg.typ = typeSimpleErr ∧ ((lit "LOADING").isPrefixOf msg.string ∨
      (lit "BUSY").isPrefixOf msg.string ∨ containsBytes msg.string (lit "'ping'")) then
    (true, { msg with typ := typeSimpleString }.setString (lit "PONG"))
  else
    (msg.string == lit "PONG" || (msg.values.head?.map (·.string)) == some (lit "pong"), msg)

def isPush (cfg : PipeConfig) (msg : RedisMessage) : Bool :=
  msg.typ == typePush ||
    (cfg.r2ps && !msg.values.isEmpty && (msg.values.head?.map (·.string)) != some (lit "pong"))

def expireAt (now : Int) (pttl : Int64) : Int64 :=
  Int64.ofInt ((now + (pttl * 1000000).toInt) / 1000000)

def cacheCopy (now : Int) (pttl : Int64) (m : RedisMessage) : RedisMessage :=
  let cp := { m with attrs := some cacheMark }
  if 0 ≤ pttl then cp.setExpireAt (expireAt now pttl) else cp

section ReadLoop

variable {σ : Type} (cfg : PipeConfig) (store : CacheStore σ) (env : Env)

structure Committed (σ : Type) where
  cache : Option σ
  effects : List Effect
  msg : Except Panic RedisMessage

def staticCommit (cache : Option σ) (cmd : Completed) (msg : RedisMessage) : Committed σ :=
  match cacheKey cmd, cache with
  | .error p, _ => ⟨cache, [], .error p⟩
  | .ok _, none => ⟨none, [], .error nilDereference⟩
  | .ok (ck, cc), some c =>
    match msg.error with
    | some .nil | none =>
      let cp := { msg with attrs := some cacheMark }
      let (c', pxat) := store.update c ck cc cp
      ⟨some c', [.cacheUpdate ck cc cp], .ok (msg.setExpireAt pxat)⟩
    | some err => ⟨some (store.cancel c ck cc err), [.cacheCancel ck cc err], .ok msg⟩

/-- The keys of an MGET, from the `i`-th on: their values are in `msgs`, their PTTLs in the EXEC
reply. -/
def mgetCommit (cmd : Completed) (cc : Bytes) (pttls : List RedisMessage) :
    Nat → Option σ → List RedisMessage → Option σ × List Effect × Except Panic (List RedisMessage)
  | _, cache, [] => (cache, [], .ok [])
  | i, cache, m :: msgs =>
    match mgetCacheKey cmd i, pttls[i]?, cache with
    | .error p, _, _ => (cache, [], .error p)
    | .ok _, none, _ => (cache, [], .error indexOutOfRange)
    | .ok _, some _, none => (none, [], .error nilDereference)
    | .ok ck, some pttl, some c =>
      let cp := cacheCopy env.now pttl.intlen m
      let (c', pxat) := store.update c ck cc cp
      let (cache', effs, rest) := mgetCommit cmd cc pttls (i + 1) (some c') msgs
      (cache', .cacheUpdate ck cc cp :: effs, rest.map (m.setExpireAt pxat :: ·))

def execCommit (cache : Option σ) (cmd : Completed) (msg : RedisMessage) : Committed σ :=
  let front := msg.values.dropLast
  match msg.values.getLast?, front.getLast? with
  | some last, some pttl =>
    if cmd.isMGet then
      match mgetCacheCmd cmd with
      | .error p => ⟨cache, [], .error p⟩
      | .ok cc =>
        let (cache', effs, msgs) := mgetCommit store env cmd cc msg.values 0 cache last.values
        ⟨cache', effs, msgs.map fun ms =>
          { msg with array := some (front ++ [{ last with array := last.array.map fun _ => ms }]) }⟩
    else
      match cacheKey cmd, cache with
      | .error p, _ => ⟨cache, [], .error p⟩
      | .ok _, none => ⟨none, [], .error nilDereference⟩
      | .ok (ck, cc), some c =>
        let cp := cacheCopy env.now pttl.intlen last
        let (c', pxat) := store.update c ck cc cp
        ⟨some c', [.cacheUpdate ck cc cp],
          .ok { msg with array := some (front ++ [last.setExpireAt pxat]) }⟩
  | _, _ => ⟨cache, [], .error indexOutOfRange⟩

def commit (cache : Option σ) (multi : List Completed) (ff : Nat) (msg : RedisMessage) :
    Committed σ :=
  match multi[ff]? with
  | none => ⟨cache, [], .error indexOutOfRange⟩
  | some cmd =>
    if 0 < ff ∧ cmd.isStaticTTL then staticCommit store cache cmd msg
    else if 4 ≤ ff ∧ 2 ≤ msg.values.length ∧ (multi.headD {}).isOptIn then
      execCommit store env cache (multi.getD (ff - 1) {}) msg
    else ⟨cache, [], .ok msg⟩

def record (st : ReadLoop σ) (msg : RedisMessage) (effs : List Effect) : Turn σ :=
  let resp := newResult msg none
  let fulfilled := if st.batch then [Effect.fulfill st.ch st.ff resp] else []
  let delivered := if st.ff + 1 = st.multi.length then [Effect.deliver st.ch resp] else []
  ⟨.next, { st with ff := st.ff + 1 }, effs ++ fulfilled ++ delivered⟩

def assign (st : ReadLoop σ) (msg : RedisMessage) (effs : List Effect) : Turn σ :=
  if st.prply ∧ st.unsub then ⟨.next, { st with prply := false, unsub := false }, effs⟩
  else match st.multi[st.ff]? with
    | none => ⟨.panic indexOutOfRange, st, effs⟩
    | some cmd =>
      if st.prply then
        if cmd.noReply then
          record { st with prply := false, unsub := false, skip := cmd.commands.length - 2 } {} effs
        else ⟨.panic protocolbug, st, effs⟩
      else if cmd.noReply ∧ msg.string = lit "QUEUED" then ⟨.panic multiexecsub, st, effs⟩
      else
        let (isReply, msg') := isUnsubReply msg
        if cmd.isUnsub ∧ !isReply then record { st with skipUnsubReply := true } msg effs
        else
          -- `isUnsubReply` has changed the message only when it was called
          let msg := if cmd.isUnsub then msg' else msg
          if st.skipUnsubReply then
            if (isUnsubReply msg).1 then ⟨.next, { st with skipUnsubReply := false }, effs⟩
            else ⟨.panic protocolbug, st, effs⟩
          else record st msg effs

def ReadLoop.take (st : ReadLoop σ) (call : Call) (queue : List Call) : ReadLoop σ :=
  match call with
  | .one cmd ch => { st with ff := 0, multi := [cmd], batch := false, ch := ch, queue := queue }
  | .multi cmds ch => { st with ff := 0, multi := cmds, batch := true, ch := ch, queue := queue }

def dispatch (st : ReadLoop σ) (msg : RedisMessage) (effs : List Effect) : Turn σ :=
  if st.ff = st.multi.length then
    match st.queue with
    | [] =>
      let st := { st with ff := 0, multi := [], batch := false }
      if st.unsub then ⟨.next, { st with prply := false, unsub := false }, effs⟩
      else if st.skipUnsubReply ∧ (isUnsubReply msg).1 then
        ⟨.next, { st with skipUnsubReply := false }, effs⟩
      else ⟨.panic protocolbug, st, effs⟩
    | call :: queue => assign (st.take call queue) msg effs
  else
    let c := commit store env st.cache st.multi st.ff msg
    match c.msg with
    | .error p => ⟨.panic p, { st with cache := c.cache }, effs ++ c.effects⟩
    | .ok msg => assign { st with cache := c.cache } msg (effs ++ c.effects)

def exitWith (st : ReadLoop σ) (e : ReadErr) (effs : List Effect) : Turn σ :=
  match e with
  | .panic p => ⟨.panic p, st, effs⟩
  | e =>
    let resp := newErrorResult (some (if env.expired then .connExpired else e.toErr))
    let fulfilled := if st.batch then
        (List.range' st.ff (st.multi.length - st.ff)).map fun i => Effect.fulfill st.ch i resp
      else []
    let pending := if st.ff < st.multi.length then fulfilled ++ [Effect.deliver st.ch resp] else []
    ⟨.exit e.toErr, st, effs ++ pending⟩

def handlePushes (cache : Option σ) : List RedisMessage → Option σ × List Effect
  | [] => (cache, [])
  | v :: vs =>
    if v.typ = typePush then
      let p := handlePush cfg store env.hooks cache v.values
      let (cache', effs) := handlePushes p.cache vs
      (cache', p.effects ++ effs)
    else handlePushes cache vs

def refill : Nat → RespReader (List RedisMessage)
  | 0 => return []
  | n + 1 => do
      let m ← readNextMessage
      return m :: (← refill n)

def readStep (st : ReadLoop σ) : Turn σ :=
  match readNextMessage st.r with
  | (.error e, r) => exitWith env { st with r := r } e []
  | (.ok msg, r) =>
    let st := { st with r := r }
    if isPush cfg msg then
      let p := handlePush cfg store env.hooks st.cache msg.values
      let st := { st with cache := p.cache, prply := p.reply, unsub := p.unsubscribe }
      if !p.reply then ⟨.next, st, p.effects⟩
      else if 0 < st.skip then
        ⟨.next, { st with skip := st.skip - 1, prply := false, unsub := false }, p.effects⟩
      else dispatch store env st msg p.effects
    else if cfg.version = 6 ∧ msg.values ≠ [] then
      -- Redis 6 sends invalidations in the middle of an array, where they take element positions
      let kept := msg.values.filter (·.typ != typePush)
      let (cache, effs) := handlePushes cfg store env st.cache msg.values
      match refill (msg.values.length - kept.length) r with
      | (.error e, r) => exitWith env { st with r := r, cache := cache } e effs
      | (.ok more, r) =>
        dispatch store env { st with r := r, cache := cache }
          { msg with array := some (kept ++ more) } effs
    else dispatch store env st msg []

/-! ## What a turn can do -/

inductive Assigned (st : ReadLoop σ) (msg : RedisMessage) (effs : List Effect) : Turn σ → Prop where
  | panics (p : Panic) : Assigned st msg effs ⟨.panic p, st, effs⟩
  | ignored (hpush : st.prply = true) (hunsub : st.unsub = true) :
      Assigned st msg effs ⟨.next, { st with prply := false, unsub := false }, effs⟩
  | subscribed (cmd : Completed) (hcmd : st.multi[st.ff]? = some cmd) (hpush : st.prply = true)
      (hno : cmd.noReply = true) :
      Assigned st msg effs (record { st with
        prply := false, unsub := false, skip := cmd.commands.length - 2 } {} effs)
  | unsubPending (cmd : Completed) (hcmd : st.multi[st.ff]? = some cmd) (hpush : st.prply = false)
      (hunsub : cmd.isUnsub = true) :
      Assigned st msg effs (record { st with skipUnsubReply := true } msg effs)
  | pong (hpush : st.prply = false) (hskip : st.skipUnsubReply = true) :
      Assigned st msg effs ⟨.next, { st with skipUnsubReply := false }, effs⟩
  | replied (cmd : Completed) (hcmd : st.multi[st.ff]? = some cmd) (hpush : st.prply = false)
      (hskip : st.skipUnsubReply = false) :
      Assigned st msg effs
        (record st (if cmd.isUnsub then (isUnsubReply msg).2 else msg) effs)

theorem assign_cases (st : ReadLoop σ) (msg : RedisMessage) (effs : List Effect) :
    Assigned st msg effs (assign st msg effs) := by
  unfold assign
  split
  · rename_i h
    exact .ignored h.1 h.2
  · rename_i hignore
    split
    · exact .panics _
    · rename_i cmd hcmd
      by_cases hpush : st.prply = true
      · rw [if_pos hpush]
        split
        · exact .subscribed cmd hcmd hpush ‹_›
        · exact .panics _
      · rw [if_neg hpush]
        rw [Bool.not_eq_true] at hpush
        split
        · exact .panics _
        · dsimp only
          split
          · rename_i hunsub
            exact .unsubPending cmd hcmd hpush hunsub.1
          · by_cases hskip : st.skipUnsubReply = true
            · rw [if_pos hskip]
              by_cases hpong :
                  (isUnsubReply (if cmd.isUnsub = true then (isUnsubReply msg).2 else msg)).1 = true
              · rw [if_pos hpong]
                exact .pong hpush hskip
              · rw [if_neg hpong]
                exact .panics _
            · rw [if_neg hskip]
              rw [Bool.not_eq_true] at hskip
              exact .replied cmd hcmd hpush hskip

theorem assign_ordinary {st : ReadLoop σ} {cmd : Completed} (hp : st.prply = false)
    (hs : st.skipUnsubReply = false) (hcmd : st.multi[st.ff]? = some cmd)
    (hreply : cmd.noReply = false) (msg : RedisMessage) (effs : List Effect) :
    assign st msg effs = record st msg effs := by
  have hunsub : cmd.isUnsub = false := by
    by_contra hu
    rw [noReply_of_isUnsub (by simpa using hu)] at hreply
    cases hreply
  simp [assign, hp, hs, hcmd, hreply, hunsub]

inductive Dispatched (st : ReadLoop σ) (msg : RedisMessage) (effs : List Effect) : Turn σ → Prop where
  | idlePanics (hff : st.ff = st.multi.length) (p : Panic) :
      Dispatched st msg effs ⟨.panic p, { st with ff := 0, multi := [], batch := false }, effs⟩
  | idleIgnored (hff : st.ff = st.multi.length) (hunsub : st.unsub = true) :
      Dispatched st msg effs ⟨.next, { st with
        ff := 0, multi := [], batch := false, prply := false, unsub := false }, effs⟩
  | idlePong (hff : st.ff = st.multi.length) (hunsub : st.unsub = false)
      (hpong : (isUnsubReply msg).1 = true) :
      Dispatched st msg effs ⟨.next, { st with
        ff := 0, multi := [], batch := false, skipUnsubReply := false }, effs⟩
  | taken (hff : st.ff = st.multi.length) (call : Call) (queue : List Call)
      (hqueue : st.queue = call :: queue) {t : Turn σ}
      (ht : Assigned (st.take call queue) msg effs t) : Dispatched st msg effs t
  | commitPanics (hff : st.ff ≠ st.multi.length) (p : Panic) :
      Dispatched st msg effs ⟨.panic p,
        { st with cache := (commit store env st.cache st.multi st.ff msg).cache },
        effs ++ (commit store env st.cache st.multi st.ff msg).effects⟩
  | committed (hff : st.ff ≠ st.multi.length) (m : RedisMessage)
      (hm : (commit store env st.cache st.multi st.ff msg).msg = .ok m) {t : Turn σ}
      (ht : Assigned { st with cache := (commit store env st.cache st.multi st.ff msg).cache } m
        (effs ++ (commit store env st.cache st.multi st.ff msg).effects) t) :
      Dispatched st msg effs t

theorem dispatch_cases (st : ReadLoop σ) (msg : RedisMessage) (effs : List Effect) :
    Dispatched store env st msg effs (dispatch store env st msg effs) := by
  unfold dispatch
  split
  · rename_i hff
    split
    · by_cases hunsub : st.unsub = true
      · rw [if_pos hunsub]
        exact .idleIgnored hff hunsub
      · rw [if_neg hunsub]
        rw [Bool.not_eq_true] at hunsub
        split
        · rename_i hpong
          exact .idlePong hff hunsub hpong.2
        · exact .idlePanics hff _
    · rename_i call queue hqueue
      exact .taken hff call queue hqueue (assign_cases _ _ _)
  · rename_i hff
    dsimp only
    split
    · rename_i p hp
      exact .commitPanics hff p
    · rename_i m hm
      exact .committed hff m hm (assign_cases _ _ _)

/-- The ways in which a turn can go, up to what `dispatch` does. -/
inductive Stepped (st : ReadLoop σ) : Turn σ → Prop where
  | failed (e : ReadErr) (r : Bytes) (hread : readNextMessage st.r = (.error e, r)) :
      Stepped st (exitWith env { st with r := r } e [])
  | handled (msg : RedisMessage) (r : Bytes) (hread : readNextMessage st.r = (.ok msg, r))
      (hpush : isPush cfg msg = true) (skip : Int) :
      Stepped st ⟨.next, { st with
        r := r, cache := (handlePush cfg store env.hooks st.cache msg.values).cache,
        skip := skip, prply := false, unsub := false },
        (handlePush cfg store env.hooks st.cache msg.values).effects⟩
  | notified (msg : RedisMessage) (r : Bytes) (hread : readNextMessage st.r = (.ok msg, r))
      (hpush : isPush cfg msg = true) (hn : isNotification msg.values = true)
      (hskip : ¬ 0 < st.skip) (unsub : Bool) {t : Turn σ}
      (ht : Dispatched store env { st with
        r := r, cache := (handlePush cfg store env.hooks st.cache msg.values).cache,
        prply := true, unsub := unsub } msg
        (handlePush cfg store env.hooks st.cache msg.values).effects t) : Stepped st t
  | repairFailed (msg : RedisMessage) (r r' : Bytes) (hread : readNextMessage st.r = (.ok msg, r))
      (hpush : isPush cfg msg = false) (e : ReadErr) :
      Stepped st (exitWith env
        { st with r := r', cache := (handlePushes cfg store env st.cache msg.values).1 } e
        (handlePushes cfg store env st.cache msg.values).2)
  | repaired (msg : RedisMessage) (r r' : Bytes) (hread : readNextMessage st.r = (.ok msg, r))
      (hpush : isPush cfg msg = false) (hver : cfg.version = 6 ∧ msg.values ≠ [])
      (more : List RedisMessage)
      (hmore : refill (msg.values.length - (msg.values.filter (·.typ != typePush)).length) r =
        (.ok more, r')) {t : Turn σ}
      (ht : Dispatched store env
        { st with r := r', cache := (handlePushes cfg store env st.cache msg.values).1 }
        { msg with array := some (msg.values.filter (·.typ != typePush) ++ more) }
        (handlePushes cfg store env st.cache msg.values).2 t) : Stepped st t
  | answered (msg : RedisMessage) (r : Bytes) (hread : readNextMessage st.r = (.ok msg, r))
      (hpush : isPush cfg msg = false) (hver : ¬ (cfg.version = 6 ∧ msg.values ≠ [])) {t : Turn σ}
      (ht : Dispatched store env { st with r := r } msg [] t) : Stepped st t

theorem readStep_cases (st : ReadLoop σ) : Stepped cfg store env st (readStep cfg store env st) := by
  unfold readStep
  split
  · rename_i e r hread
    exact .failed e r hread
  · rename_i msg r hread
    dsimp only
    by_cases hpush : isPush cfg msg = true
    · rw [if_pos hpush]
      have hreply := handlePush_reply cfg store env.hooks st.cache msg.values
      have hunsub := handlePush_unsubscribe cfg store env.hooks st.cache msg.values
      set p := handlePush cfg store env.hooks st.cache msg.values with hp
      by_cases hr : p.reply = true
      · rw [if_neg (by simp [hr]), hr]
        split
        · exact .handled msg r hread hpush _
        · rename_i hskip
          exact .notified msg r hread hpush (hreply ▸ hr) hskip _ (dispatch_cases _ _ _ _ _)
      · rw [Bool.not_eq_true] at hr
        rw [if_pos (by simp [hr]), hr, hunsub hr]
        exact .handled msg r hread hpush _
    · rw [if_neg hpush]
      rw [Bool.not_eq_true] at hpush
      split
      · rename_i hver
        split
        · rename_i e r' hmore
          exact .repairFailed msg r r' hread hpush e
        · rename_i more r' hmore
          exact .repaired msg r r' hread hpush hver more hmore (dispatch_cases _ _ _ _ _)
      · rename_i hver
        exact .answered msg r hread hpush hver (dispatch_cases _ _ _ _ _)

end ReadLoop

end Rueidis
