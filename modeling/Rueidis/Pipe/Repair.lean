import Rueidis.Pipe.CacheCommits
import Rueidis.Resp.RoundTrip

/-!
# Repairing the arrays of Redis 6

Redis 6 may send invalidations in the middle of an array, where they take the positions of elements.
The read loop takes them out and reads as many messages behind the array to fill it up again.
-/

namespace Rueidis

open List

open Decimal (numeral)
open Wire (encode encodeElems messages Valid ValidElems)

/-! ## Ordinary replies -/

section Ordinary

variable {σ : Type} (store : CacheStore σ) (env : Env)

variable {st : ReadLoop σ} {m msg : RedisMessage}

/-- The loop as it records the next reply: at the call in progress, or at the next one. -/
def ReadLoop.active (st : ReadLoop σ) : ReadLoop σ :=
  if st.ff = st.multi.length then
    match st.queue with
    | call :: queue => st.take call queue
    | [] => st
  else st

/-- What the EXEC behind `cmd` commits has keys: a MGET has a key and a PTTL for each value. -/
def Keyed (cmd : Completed) (m : RedisMessage) : Prop :=
  let count := (m.values.getLastD {}).values.length
  if cmd.isMGet then
    (∃ cc, mgetCacheCmd cmd = .ok cc) ∧ (∀ i < count, ∃ ck, mgetCacheKey cmd i = .ok ck) ∧
      count ≤ m.values.length
  else ∃ key, cacheKey cmd = .ok key

/-- The due reply `m` can be committed: the cache is there, and so are the keys. -/
def ReadLoop.Committable (st : ReadLoop σ) (m : RedisMessage) : Prop :=
  let due := st.multi.getD st.ff {}
  st.cache.isSome = true ∧ if due.isStaticTTL then ∃ key, cacheKey due = .ok key
    else Keyed (st.multi.getD (st.ff - 1) {}) m

/-- The next reply, `m`, is that of a command which has one. -/
structure AwaitsOrdinary (st : ReadLoop σ) (m : RedisMessage) : Prop where
  prply : st.prply = false
  skipUnsubReply : st.skipUnsubReply = false
  committable : st.commitWindow = true → st.Committable m
  cmd : ∃ cmd, st.active.multi[st.active.ff]? = some cmd ∧ cmd.noReply = false

theorem commit_ok {cmd : Completed} (hcmd : st.multi[st.ff]? = some cmd)
    (h : st.commitWindow = true → st.Committable m) :
    ∃ m', (commit store env st.cache st.multi st.ff m).msg = .ok m' := by
  by_cases hw : st.commitWindow = false
  · rw [commit_of_not_window store env hw hcmd]
    exact ⟨m, rfl⟩
  obtain ⟨hcache, hkeys⟩ := h (Bool.not_eq_false _ ▸ hw)
  obtain ⟨c, hc⟩ := Option.isSome_iff_exists.mp hcache
  have hdue : st.multi.getD st.ff {} = cmd := by rw [getD_eq_getElem?_getD, hcmd]; rfl
  rw [hdue] at hkeys
  unfold commit
  rw [hcmd, hc]
  dsimp only
  split
  next hstatic =>
    rw [if_pos hstatic.2] at hkeys
    obtain ⟨key, hkey⟩ := hkeys
    unfold staticCommit
    rw [hkey]
    dsimp only
    split <;> exact ⟨_, rfl⟩
  next hstatic =>
  split
  next hexec =>
    rw [if_neg fun hs => hstatic ⟨by omega, hs⟩] at hkeys
    have hlong := hexec.2.1
    unfold Keyed at hkeys
    split at hkeys
    next hmget =>
      obtain ⟨⟨cc, hcc⟩, hcounted, hpttls⟩ := hkeys
      obtain ⟨last, -, hlast, -⟩ := exists_last_two hlong
      rw [getLastD_eq_getLast?, hlast] at hcounted hpttls
      rw [(execCommit_mget store env (some c) hmget hcc hlong hlast).2]
      refine mgetCommit_ok store env _ cc m.values c (fun i hi => ?_) (by simpa using hpttls)
      rw [Nat.zero_add]
      exact hcounted i hi
    next hmget =>
      obtain ⟨key, hkey⟩ := hkeys
      exact execCommit_ok store env c (Bool.eq_false_iff.mpr hmget) hkey hlong
  · exact ⟨m, rfl⟩

theorem take_prply (st : ReadLoop σ) (call : Call) (queue : List Call) :
    (st.take call queue).prply = st.prply ∧
      (st.take call queue).skipUnsubReply = st.skipUnsubReply := by
  cases call <;> exact ⟨rfl, rfl⟩

/-- The turn records a reply that is `msg` up to the expiry stamps of a commit. -/
def Records (st : ReadLoop σ) (msg : RedisMessage) (effs : List Effect) (t : Turn σ) : Prop :=
  ∃ commits reply, (∀ e ∈ commits, CommitAt st.multi st.ff msg e) ∧
    reply.eraseTtl = msg.eraseTtl ∧
    (st.commitWindow = false → commits = [] ∧ reply = msg) ∧
    t = record { st.active with cache := replay store st.cache commits } reply (effs ++ commits)

theorem dispatch_ordinary (h : AwaitsOrdinary st msg) (effs : List Effect) :
    Records store st msg effs (dispatch store env st msg effs) := by
  obtain ⟨hp, hs, hw, cmd, hcmd, hreply⟩ := h
  unfold Records ReadLoop.active at *
  unfold dispatch
  by_cases hff : st.ff = st.multi.length
  · simp only [if_pos hff] at hcmd ⊢
    split at hcmd
    · rename_i call queue hqueue
      obtain ⟨hp', hs'⟩ := take_prply st call queue
      refine ⟨[], msg, nofun, rfl, fun _ => ⟨rfl, rfl⟩, ?_⟩
      rw [hqueue, append_nil]
      dsimp only
      rw [assign_ordinary (hp'.trans hp) (hs'.trans hs) hcmd hreply msg effs]
      cases call <;> rfl
    · rw [hff, getElem?_length] at hcmd
      cases hcmd
  · simp only [if_neg hff] at hcmd ⊢
    have hspec := commit_spec store env st.cache st.multi st.ff msg
    obtain ⟨reply, hmsg⟩ := commit_ok store env hcmd hw
    refine ⟨(commit store env st.cache st.multi st.ff msg).effects, reply, hspec.own,
      hspec.reply reply hmsg, fun hout => ?_, ?_⟩
    · rw [commit_of_not_window store env hout hcmd] at hmsg ⊢
      exact ⟨rfl, (Except.ok.inj hmsg).symm⟩
    · rw [hmsg, ← hspec.replay]
      dsimp only
      rw [assign_ordinary (by exact hp) (by exact hs) (by exact hcmd) hreply]

theorem Assigned.unread {effs : List Effect} {t : Turn σ} (h : Assigned st msg effs t) :
    t.st.r = st.r := by
  cases h <;> rfl

theorem dispatch_unread (st : ReadLoop σ) (msg : RedisMessage) (effs : List Effect) :
    (dispatch store env st msg effs).st.r = st.r := by
  have h := dispatch_cases store env st msg effs
  generalize dispatch store env st msg effs = t at h ⊢
  cases h with
  | taken hff call queue hqueue ht =>
    rw [ht.unread]
    cases call <;> rfl
  | committed hff m hm ht => exact ht.unread
  | idlePanics | idleIgnored | idlePong | commitPanics => rfl

theorem active_with (st : ReadLoop σ) (r : Bytes) (cache : Option σ) :
    { st with r := r, cache := cache }.active = { st.active with r := r, cache := cache } := by
  unfold ReadLoop.active
  dsimp only
  split
  · split
    · rename_i call queue _
      cases call <;> rfl
    · rfl
  · rfl

theorem AwaitsOrdinary.with (h : AwaitsOrdinary st m) (r : Bytes) {cache : Option σ}
    (hcache : cache.isSome = st.cache.isSome) :
    AwaitsOrdinary { st with r := r, cache := cache } m := by
  obtain ⟨cmd, hcmd, hreply⟩ := h.cmd
  refine ⟨h.prply, h.skipUnsubReply, fun hw => ?_, cmd, by rw [active_with]; exact hcmd, hreply⟩
  exact ⟨hcache.trans (h.committable hw).1, (h.committable hw).2⟩

end Ordinary

/-! ## Arrays with pushes inside -/

structure InvalidationForm extends PushForm where
  invalidation : isInvalidation wire.message.values = true

/-- An element of an array, with the invalidations that Redis 6 sends in front of it. -/
structure Group where
  pushes : List InvalidationForm
  elem : ReplyForm

inductive ReplyItem where
  | push (p : InvalidationForm)
  | elem (e : ReplyForm)

namespace ReplyItem

def wire : ReplyItem → Wire
  | .push p => p.wire
  | .elem e => e.wire

def isElem : ReplyItem → Bool
  | .push _ => false
  | .elem _ => true

def push? : ReplyItem → Option InvalidationForm
  | .push p => some p
  | .elem _ => none

theorem valid (x : ReplyItem) : x.wire.Valid := by
  cases x with
  | push p => exact p.valid
  | elem e => exact e.valid

theorem typ_bne_push (x : ReplyItem) : (x.wire.message.typ != typePush) = x.isElem := by
  rw [Wire.message, Wire.messageWith_typ]
  cases x with
  | push p => simp [wire, isElem, p.push]
  | elem e => simpa [wire, isElem] using e.notPush

end ReplyItem

def Group.items (g : Group) : List ReplyItem := g.pushes.map .push ++ [.elem g.elem]

def interleave (gs : List Group) : List ReplyItem := gs.flatMap Group.items

def encodeGroups (gs : List Group) : Bytes :=
  typeArray :: (numeral gs.length ++ crlf ++ encodeElems ((interleave gs).map ReplyItem.wire))

def countedArray (n : Nat) (vs : List RedisMessage) : RedisMessage :=
  { typ := typeArray, intlen := Int64.ofNat n, array := some vs }

def intendedReply (gs : List Group) : RedisMessage :=
  (Wire.aggregate .array false (gs.map (·.elem.wire))).message

theorem filter_interleave (gs : List Group) :
    (interleave gs).filter ReplyItem.isElem = gs.map fun g => .elem g.elem := by
  induction gs with
  | nil => rfl
  | cons g gs ih =>
    have hpushes : (g.pushes.map ReplyItem.push).filter ReplyItem.isElem = [] := by
      rw [filter_eq_nil_iff]
      intro x hx
      obtain ⟨p, -, rfl⟩ := mem_map.mp hx
      simp [ReplyItem.isElem]
    unfold interleave at ih ⊢
    rw [flatMap_cons, filter_append, ih, Group.items, filter_append, hpushes]
    rfl

theorem filterMap_interleave (gs : List Group) :
    (interleave gs).filterMap ReplyItem.push? = gs.flatMap (·.pushes) := by
  induction gs with
  | nil => rfl
  | cons g gs ih =>
    have hpushes : (g.pushes.map ReplyItem.push).filterMap ReplyItem.push? = g.pushes := by
      rw [filterMap_map]
      exact filterMap_some
    unfold interleave at ih ⊢
    rw [flatMap_cons, filterMap_append, ih, Group.items, filterMap_append, hpushes,
      flatMap_cons]
    simp [ReplyItem.push?]

theorem length_le_interleave (gs : List Group) : gs.length ≤ (interleave gs).length := by
  have hfilter := congrArg length (filter_interleave gs)
  have hle := length_filter_le ReplyItem.isElem (interleave gs)
  rw [length_map] at hfilter
  omega

theorem refill_encode (es : List Wire) (hes : ∀ e ∈ es, e.Valid) (r : Bytes) :
    refill es.length (encodeElems es ++ r) = (.ok (messages es), r) := by
  induction es with
  | nil => rfl
  | cons e es ih =>
    have hhead := readNextMessage_encode e (hes e (by simp)) (encodeElems es ++ r)
    have htail := ih (fun x hx => hes x (by simp [hx]))
    rw [length_cons, refill, encodeElems, append_assoc, ByteReader.bind_ok hhead,
      ByteReader.bind_ok htail]
    rfl

section Repair

variable {σ : Type} (store : CacheStore σ) (env : Env)

variable {gs : List Group}

def redis6 (onInvalidations : Bool) : PipeConfig :=
  { version := 6, onInvalidations := onInvalidations }

def invalidateAll (cfg : PipeConfig) (cache : Option σ) :
    List InvalidationForm → Option σ × List Effect
  | [] => (cache, [])
  | p :: ps =>
    let q := handleInvalidate cfg store env.hooks cache (p.wire.message.values.getD 1 {})
    let (cache', effs) := invalidateAll cfg q.cache ps
    (cache', q.effects ++ effs)

theorem isSome_invalidateAll (cfg : PipeConfig) (cache : Option σ) (ps : List InvalidationForm) :
    (invalidateAll store env cfg cache ps).1.isSome = cache.isSome := by
  induction ps generalizing cache with
  | nil => rfl
  | cons p ps ih => exact (ih _).trans Option.isSome_map

theorem handlePush_invalidation (cfg : PipeConfig) (cache : Option σ) (p : InvalidationForm) :
    handlePush cfg store env.hooks cache p.wire.message.values =
      handleInvalidate cfg store env.hooks cache (p.wire.message.values.getD 1 {}) := by
  have hinv := p.invalidation
  match hv : p.wire.message.values with
  | [] | [_] =>
    rw [hv] at hinv
    cases hinv
  | v0 :: v1 :: rest =>
    rw [hv] at hinv
    dsimp only [isInvalidation] at hinv
    rw [beq_iff_eq] at hinv
    dsimp only [handlePush]
    rw [hinv]
    rfl

theorem handlePushes_items (cfg : PipeConfig) (cache : Option σ) (xs : List ReplyItem) :
    handlePushes cfg store env cache (xs.map (·.wire.message)) =
      invalidateAll store env cfg cache (xs.filterMap ReplyItem.push?) := by
  induction xs generalizing cache with
  | nil => rfl
  | cons x xs ih =>
    rw [map_cons, handlePushes]
    cases x with
    | push p =>
      have htyp : (ReplyItem.push p).wire.message.typ = typePush := by
        rw [Wire.message, Wire.messageWith_typ]
        exact p.push
      have hpush : handlePush cfg store env.hooks cache
          (ReplyItem.push p).wire.message.values = _ :=
        handlePush_invalidation store env cfg cache p
      rw [if_pos htyp, hpush]
      dsimp only
      rw [ih]
      rfl
    | elem e =>
      have htyp : (ReplyItem.elem e).wire.message.typ ≠ typePush := by
        rw [Wire.message, Wire.messageWith_typ]
        exact e.notPush
      rw [if_neg htyp]
      exact ih cache

theorem readNextMessage_groups (gs : List Group) (hlen : gs.length ≤ maxMessages) (rest : Bytes) :
    readNextMessage (encodeGroups gs ++ rest) =
      (.ok (countedArray gs.length (((interleave gs).take gs.length).map (·.wire.message))),
        encodeElems (((interleave gs).drop gs.length).map ReplyItem.wire) ++ rest) := by
  set front := (interleave gs).take gs.length with hfront
  set back := (interleave gs).drop gs.length with hback
  have hcount : front.length = gs.length := by
    rw [hfront, length_take]
    have := length_le_interleave gs
    omega
  have hvalid : (Wire.aggregate .array false (front.map ReplyItem.wire)).Valid := by
    rw [Valid, length_map, hcount, Wire.validElems_iff]
    refine ⟨hlen, by simp [AggregateKind.isMap], fun e he => ?_⟩
    obtain ⟨x, -, rfl⟩ := mem_map.mp he
    exact x.valid
  have hread := readNextMessage_encode _ hvalid (encodeElems (back.map ReplyItem.wire) ++ rest)
  have hbytes : encodeGroups gs ++ rest = encode (.aggregate .array false (front.map ReplyItem.wire)) ++
      (encodeElems (back.map ReplyItem.wire) ++ rest) := by
    have hsplit : interleave gs = front ++ back := (take_append_drop _ _).symm
    rw [encodeGroups, hsplit, encode, length_map, hcount]
    simp [header, trailer, elemCount, AggregateKind.isMap, AggregateKind.typ,
      Wire.encodeElems_eq_flatMap]
  have hmsg : (Wire.aggregate .array false (front.map ReplyItem.wire)).message =
      countedArray gs.length (front.map (·.wire.message)) := by
    rw [Wire.message, Wire.messageWith, Wire.messages_eq_map, map_map]
    simp [countedArray, RedisMessage.setValues, hcount, AggregateKind.typ, Function.comp_def]
  rw [hbytes, hread, hmsg]

theorem filter_front_back (gs : List Group) :
    ((interleave gs).take gs.length).filter ReplyItem.isElem ++
      ((interleave gs).drop gs.length).filter ReplyItem.isElem =
        gs.map fun g => ReplyItem.elem g.elem := by
  rw [← filter_append, take_append_drop, filter_interleave]

theorem refill_items (xs : List ReplyItem) (k : Nat) (hk : k ≤ xs.length) (rest : Bytes) :
    refill k (encodeElems (xs.map ReplyItem.wire) ++ rest) =
      (.ok ((xs.take k).map (·.wire.message)),
        encodeElems ((xs.drop k).map ReplyItem.wire) ++ rest) := by
  have hvalid : ∀ e ∈ (xs.take k).map ReplyItem.wire, e.Valid := by
    intro e he
    obtain ⟨x, -, rfl⟩ := mem_map.mp he
    exact x.valid
  have hread := refill_encode _ hvalid (encodeElems ((xs.drop k).map ReplyItem.wire) ++ rest)
  have hbytes : encodeElems (xs.map ReplyItem.wire) ++ rest =
      encodeElems ((xs.take k).map ReplyItem.wire) ++
        (encodeElems ((xs.drop k).map ReplyItem.wire) ++ rest) := by
    rw [← append_assoc, ← Wire.encodeElems_append, ← map_append, take_append_drop]
  rw [length_map, length_take, Nat.min_eq_left hk, Wire.messages_eq_map,
    map_map] at hread
  rw [hbytes]
  exact hread

theorem filter_messages (xs : List ReplyItem) :
    (xs.map (·.wire.message)).filter (·.typ != typePush) =
      (xs.filter ReplyItem.isElem).map (·.wire.message) := by
  rw [filter_map]
  congr 1
  exact filter_congr fun x _ => x.typ_bne_push

theorem readStep_groups (b : Bool) (st : ReadLoop σ) (gs : List Group) (hne : gs ≠ [])
    (hlen : gs.length ≤ maxMessages) (rest : Bytes) {front back : List ReplyItem} {k : Nat}
    (hfront : front = (interleave gs).take gs.length)
    (hback : back = (interleave gs).drop gs.length)
    (hk : k = (back.filter ReplyItem.isElem).length) :
    readStep (redis6 b) store env { st with r := encodeGroups gs ++ rest } =
      dispatch store env { st with
          r := encodeElems ((back.drop k).map ReplyItem.wire) ++ rest
          cache := (invalidateAll store env (redis6 b) st.cache (front.filterMap ReplyItem.push?)).1 }
        (countedArray gs.length
          ((front.filter ReplyItem.isElem ++ back.take k).map (·.wire.message)))
        (invalidateAll store env (redis6 b) st.cache (front.filterMap ReplyItem.push?)).2 := by
  have hcount : front.length = gs.length := by
    rw [hfront, length_take]
    have := length_le_interleave gs
    omega
  have hread := readNextMessage_groups gs hlen rest
  rw [← hfront, ← hback] at hread
  set msg : RedisMessage := countedArray gs.length (front.map (·.wire.message)) with hmsg
  have hvalues : msg.values = front.map (·.wire.message) := rfl
  have hpush : isPush (redis6 b) msg = false := rfl
  have hneed : msg.values.length - (msg.values.filter (·.typ != typePush)).length = k := by
    have h := congrArg length (filter_front_back gs)
    rw [← hfront, ← hback, length_append, length_map] at h
    rw [hvalues, filter_messages, length_map, length_map]
    omega
  have hver : (redis6 b).version = 6 ∧ msg.values ≠ [] := by
    refine ⟨rfl, fun h => ?_⟩
    have hpos := length_pos_of_ne_nil hne
    have hzero := congrArg length h
    rw [hvalues, length_map, length_nil] at hzero
    omega
  have hrefill := refill_items back k (hk ▸ length_filter_le _ _) rest
  unfold readStep
  rw [hread]
  dsimp only
  rw [if_neg (by simp [hpush]), if_pos hver, hneed, hrefill]
  dsimp only
  rw [hvalues, handlePushes_items, filter_messages, ← map_append]
  rfl

/-- What the repair should amount to: the meant reply is recorded, every push is an invalidation,
and the bytes behind the reply are unread. -/
def RepairedTurn (b : Bool) (st : ReadLoop σ) (gs : List Group) (rest : Bytes) (t : Turn σ) : Prop :=
  let inv := invalidateAll store env (redis6 b) st.cache (gs.flatMap (·.pushes))
  Records store { st with r := rest, cache := inv.1 } (intendedReply gs) inv.2 t

theorem encodeElems_length_pos {es : List Wire} (hes : es ≠ []) : 0 < (encodeElems es).length := by
  match es with
  | e :: es =>
    have hpos := encode_length_pos e
    rw [encodeElems, length_append]
    omega

theorem readStep_groups_of_front (b : Bool) {st : ReadLoop σ}
    (hst : AwaitsOrdinary st (intendedReply gs)) (hne : gs ≠ []) (hlen : gs.length ≤ maxMessages)
    (rest : Bytes) (hback : ∀ x ∈ (interleave gs).drop gs.length, x.isElem = true) :
    RepairedTurn store env b st gs rest
      (readStep (redis6 b) store env { st with r := encodeGroups gs ++ rest }) := by
  have hfilter := filter_eq_self.mpr hback
  have hpushes : ((interleave gs).take gs.length).filterMap ReplyItem.push? =
      gs.flatMap (·.pushes) := by
    have hnone : ((interleave gs).drop gs.length).filterMap ReplyItem.push? = [] := by
      rw [filterMap_eq_nil_iff]
      intro x hx
      match x, hback x hx with
      | .elem e, _ => rfl
    rw [← filterMap_interleave, ← take_append_drop gs.length (interleave gs),
      filterMap_append, hnone, append_nil, take_append_drop]
  have helems := filter_front_back gs
  rw [hfilter] at helems
  rw [readStep_groups store env b st gs hne hlen rest rfl rfl rfl, hfilter, drop_length,
    take_length, helems, hpushes, map_nil]
  have hreply : countedArray gs.length ((gs.map fun g => ReplyItem.elem g.elem).map
      (·.wire.message)) = intendedReply gs := by
    unfold intendedReply
    rw [Wire.message, Wire.messageWith, Wire.messages_eq_map, map_map, map_map]
    simp [countedArray, RedisMessage.setValues, AggregateKind.typ, Function.comp_def, ReplyItem.wire]
  rw [hreply, encodeElems, nil_append]
  exact dispatch_ordinary store env (hst.with rest (isSome_invalidateAll ..)) _

theorem readStep_groups_unread (b : Bool) {st : ReadLoop σ} (gs : List Group) (hne : gs ≠ [])
    (hlen : gs.length ≤ maxMessages) (rest : Bytes) {x : ReplyItem}
    (hx : x ∈ (interleave gs).drop gs.length) (hpush : x.isElem = false) :
    (readStep (redis6 b) store env { st with r := encodeGroups gs ++ rest }).st.r ≠ rest := by
  set back := (interleave gs).drop gs.length with hback
  have hlt : (back.filter ReplyItem.isElem).length < back.length := by
    rw [length_filter_lt_length_iff_exists]
    exact ⟨x, hx, by simp [hpush]⟩
  have hleft : (back.drop (back.filter ReplyItem.isElem).length).map ReplyItem.wire ≠ [] := by
    intro h
    have hzero := congrArg length h
    rw [length_map, length_drop, length_nil] at hzero
    omega
  have hpos := encodeElems_length_pos hleft
  rw [readStep_groups store env b st gs hne hlen rest rfl hback rfl, dispatch_unread]
  intro h
  have hlength := congrArg length (show encodeElems
    ((back.drop (back.filter ReplyItem.isElem).length).map ReplyItem.wire) ++ rest = rest from h)
  rw [length_append] at hlength
  omega

/-- The repair is right exactly when every inserted push is among the first messages behind the
header, as many as the array has elements. -/
theorem readStep_redis6_iff (b : Bool) {st : ReadLoop σ}
    (hst : AwaitsOrdinary st (intendedReply gs)) (hne : gs ≠ []) (hlen : gs.length ≤ maxMessages)
    (rest : Bytes) :
    RepairedTurn store env b st gs rest
        (readStep (redis6 b) store env { st with r := encodeGroups gs ++ rest }) ↔
      ∀ x ∈ (interleave gs).drop gs.length, x.isElem = true := by
  constructor
  · rintro ⟨commits, reply, -, -, -, hturn⟩ x hx
    by_contra hpush
    apply readStep_groups_unread store env b gs hne hlen rest hx (by simpa using hpush)
    rw [hturn, active_with]
    rfl
  · exact readStep_groups_of_front store env b hst hne hlen rest

end Repair

def intForm (v : Int64) : ReplyForm where
  wire := .integer v
  valid := trivial
  notPush := by
    rw [Wire.typ]
    decide

def invalidateForm : InvalidationForm where
  wire := .aggregate .push false
    [.line .simpleString ⟨lit "invalidate", by decide, by decide⟩, .null]
  valid := by simp [Valid, ValidElems, AggregateKind.isMap, maxMessages, maxAlloc]
  push := by
    rw [Wire.typ]
    rfl
  invalidation := by decide

def awaitingMGet : ReadLoop (List Bytes) :=
  { cache := some [], queue := [.one (newCompleted [lit "MGET", lit "a", lit "b"]) 0] }

/-- The EXEC of a batch for the client side cache is due. -/
def awaitingExec : ReadLoop (List Bytes) :=
  { cache := some [], batch := true, ff := 4
    multi := [optInCmd, multiCmd, newCompleted [lit "PTTL", lit "k"],
      newCompleted [lit "GET", lit "k"], execCmd] }

theorem awaitingExec_ordinary (m : RedisMessage) : AwaitsOrdinary awaitingExec m :=
  ⟨rfl, rfl, fun _ => ⟨rfl, (lit "k", lit "GET"), rfl⟩, execCmd, rfl, by decide⟩

theorem readStep_redis6_iff_exec :
    RepairedTurn keyStore {} false awaitingExec [⟨[invalidateForm], intForm 1⟩, ⟨[], intForm 2⟩]
      (lit "+next\r\n") (readStep (redis6 false) keyStore {} { awaitingExec with
        r := encodeGroups [⟨[invalidateForm], intForm 1⟩, ⟨[], intForm 2⟩] ++ lit "+next\r\n" }) :=
  (readStep_redis6_iff keyStore {} false (awaitingExec_ordinary _) (by simp) (by decide)
    (lit "+next\r\n")).mpr (by decide)

/-- Two pushes in front of a single element: the second push is delivered as the element, and the
element is left for the next command. -/
theorem readStep_redis6_misreads :
    (readStep (redis6 false) keyStore {} { awaitingMGet with
        r := encodeGroups [⟨[invalidateForm, invalidateForm], intForm 1⟩] ++ lit "+next\r\n" }).st.r =
      lit ":1\r\n" ++ lit "+next\r\n" ∧
    (readStep (redis6 false) keyStore {} { awaitingMGet with
        r := encodeGroups [⟨[invalidateForm, invalidateForm], intForm 1⟩] ++
          lit "+next\r\n" }).effects =
      [.cacheDelete none, .deliver 0 (newResult { typ := typeArray, intlen := 1, array := some [
        invalidateForm.wire.message] } none)] := by
  decide

end Rueidis
