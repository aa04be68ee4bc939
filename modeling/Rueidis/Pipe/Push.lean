import Rueidis.Commands

/-!
# Push messages

What the read loop of a connection does to the rest of the client is recorded as a list of effects.
`handlePush` turns the values of a push into such effects and into deletions of the client side
cache.
-/

namespace Rueidis

/-- The operations of a `CacheStore` that the read loop uses, over store states `σ`.  `update`
returns the expiry that the store chose. -/
structure CacheStore (σ : Type) where
  update : σ → Bytes → Bytes → RedisMessage → σ × Int64
  cancel : σ → Bytes → Bytes → Err → σ
  /-- `none` is a nil slice, which drops all keys. -/
  delete : σ → Option (List RedisMessage) → σ

inductive Registry where
  | nsubs
  | psubs
  | ssubs
deriving DecidableEq, Repr

structure PubSubMessage where
  pattern : Bytes := []
  channel : Bytes
  message : Bytes
deriving DecidableEq, Repr

structure PubSubSubscription where
  kind : Bytes
  channel : Bytes
  count : Int64
deriving DecidableEq, Repr

inductive Effect where
  | cacheDelete (keys : Option (List RedisMessage))
  | cacheUpdate (key cmd : Bytes) (val : RedisMessage)
  | cacheCancel (key cmd : Bytes) (err : Err)
  | onInvalidations (keys : Option (List RedisMessage))
  | hookInvalidations (keys : Option (List RedisMessage))
  | publish (reg : Registry) (channel : Bytes) (m : PubSubMessage)
  | hookMessage (m : PubSubMessage)
  | confirm (reg : Registry) (s : PubSubSubscription)
  | unsubscribe (reg : Registry) (s : PubSubSubscription)
  | hookSubscription (s : PubSubSubscription)
  /-- `resps[i] = resp` of the call with channel `ch`. -/
  | fulfill (ch : Nat) (i : Nat) (resp : RedisResult)
  /-- `ch <- resp`. -/
  | deliver (ch : Nat) (resp : RedisResult)
deriving DecidableEq, Repr

def Effect.commits : Effect → Bool
  | .cacheUpdate .. => true
  | .cacheCancel .. => true
  | _ => false

def applyEffect {σ : Type} (store : CacheStore σ) (cache : Option σ) : Effect → Option σ
  | .cacheDelete keys => cache.map (store.delete · keys)
  | .cacheUpdate key cmd val => cache.map fun c => (store.update c key cmd val).1
  | .cacheCancel key cmd err => cache.map fun c => store.cancel c key cmd err
  | _ => cache

def replay {σ : Type} (store : CacheStore σ) (cache : Option σ) (effs : List Effect) : Option σ :=
  effs.foldl (applyEffect store) cache

theorem replay_cons {σ : Type} (store : CacheStore σ) (cache : Option σ) (e : Effect)
    (effs : List Effect) :
    replay store cache (e :: effs) = replay store (applyEffect store cache e) effs := rfl

theorem replay_append {σ : Type} (store : CacheStore σ) (cache : Option σ)
    (effs effs' : List Effect) :
    replay store cache (effs ++ effs') = replay store (replay store cache effs) effs' :=
  List.foldl_append

/-- Which of the callbacks in `p.pshks` are set. -/
structure Hooks where
  onMessage : Bool := false
  onSubscription : Bool := false
  onInvalidations : Bool := false
deriving DecidableEq, Repr

structure PipeConfig where
  version : Int := 7
  r2ps : Bool := false
  onInvalidations : Bool := false
deriving DecidableEq, Repr

inductive PushKind where
  | invalidate
  | message
  | pmessage
  | smessage
  | unsubscribed (reg : Registry)
  | subscribed (reg : Registry)
  | other
deriving DecidableEq, Repr

def pushKind (s : Bytes) : PushKind :=
  if s = lit "invalidate" then .invalidate
  else if s = lit "message" then .message
  else if s = lit "pmessage" then .pmessage
  else if s = lit "smessage" then .smessage
  else if s = lit "unsubscribe" then .unsubscribed .nsubs
  else if s = lit "punsubscribe" then .unsubscribed .psubs
  else if s = lit "sunsubscribe" then .unsubscribed .ssubs
  else if s = lit "subscribe" then .subscribed .nsubs
  else if s = lit "psubscribe" then .subscribed .psubs
  else if s = lit "ssubscribe" then .subscribed .ssubs
  else .other

structure Pushed (σ : Type) where
  cache : Option σ
  effects : List Effect := []
  reply : Bool := false
  unsubscribe : Bool := false

def orNone (b : Bool) (e : Effect) : List Effect := if b then [e] else []

section HandlePush

variable {σ : Type} (cfg : PipeConfig) (store : CacheStore σ) (hooks : Hooks)

/-- The keys of an `invalidate` push; a null and a value without elements are both nil. -/
def invalidatedKeys (v : RedisMessage) : Option (List RedisMessage) :=
  if v.isNil then none else v.array

def handleInvalidate (cache : Option σ) (v : RedisMessage) : Pushed σ :=
  let keys := invalidatedKeys v
  { cache := cache.map (store.delete · keys)
    effects := orNone cache.isSome (.cacheDelete keys) ++
      orNone cfg.onInvalidations (.onInvalidations keys) ++
      orNone hooks.onInvalidations (.hookInvalidations keys) }

/-- A published message goes to the subscribers of `channel`, then to the hook. -/
def handleMessage (cache : Option σ) (reg : Registry) (channel : Bytes) (m : PubSubMessage) :
    Pushed σ :=
  { cache := cache, effects := .publish reg channel m :: orNone hooks.onMessage (.hookMessage m) }

def handleSubscription (cache : Option σ) (apply : PubSubSubscription → Effect) (unsub : Bool)
    (values : List RedisMessage) : Pushed σ :=
  { cache := cache
    effects :=
      match values with
      | kind :: channel :: count :: _ =>
        let s := ⟨kind.string, channel.string, count.intlen⟩
        apply s :: orNone hooks.onSubscription (.hookSubscription s)
      | _ => []
    reply := true
    unsubscribe := unsub }

def handlePush (cache : Option σ) (values : List RedisMessage) : Pushed σ :=
  match values with
  | v0 :: v1 :: rest =>
    match pushKind v0.string, rest with
    | .invalidate, _ => handleInvalidate cfg store hooks cache v1
    | .message, v2 :: _ =>
      handleMessage hooks cache .nsubs v1.string { channel := v1.string, message := v2.string }
    | .smessage, v2 :: _ =>
      handleMessage hooks cache .ssubs v1.string { channel := v1.string, message := v2.string }
    | .pmessage, v2 :: v3 :: _ =>
      handleMessage hooks cache .psubs v1.string
        { pattern := v1.string, channel := v2.string, message := v3.string }
    | .unsubscribed reg, _ => handleSubscription hooks cache (.unsubscribe reg) true values
    | .subscribed reg, _ => handleSubscription hooks cache (.confirm reg) false values
    | _, _ => { cache := cache }
  | _ => { cache := cache }

def isNotification (values : List RedisMessage) : Bool :=
  match values with
  | v0 :: _ :: _ =>
    match pushKind v0.string with
    | .unsubscribed _ => true
    | .subscribed _ => true
    | _ => false
  | _ => false

def isInvalidation (values : List RedisMessage) : Bool :=
  match values with
  | v0 :: _ :: _ => pushKind v0.string == .invalidate
  | _ => false

/-! ## What a push can do -/

theorem handlePush_cases (cache : Option σ) (values : List RedisMessage) :
    (∃ v, isInvalidation values = true ∧ isNotification values = false ∧
      handlePush cfg store hooks cache values = handleInvalidate cfg store hooks cache v) ∨
    (isInvalidation values = false ∧ isNotification values = true ∧
      ∃ apply unsub, (apply = Effect.unsubscribe ∨ apply = Effect.confirm) ∧ ∃ reg,
      handlePush cfg store hooks cache values =
        handleSubscription hooks cache (apply reg) unsub values) ∨
    (isInvalidation values = false ∧ isNotification values = false ∧
      ((∃ reg channel m,
        handlePush cfg store hooks cache values = handleMessage hooks cache reg channel m) ∨
      handlePush cfg store hooks cache values = { cache := cache })) := by
  match values with
  | [] | [_] => exact .inr (.inr ⟨rfl, rfl, .inr rfl⟩)
  | v0 :: v1 :: rest =>
    unfold handlePush isInvalidation isNotification
    dsimp only
    cases hkind : pushKind v0.string with
    | invalidate => exact .inl ⟨v1, rfl, rfl, rfl⟩
    | message | smessage =>
      cases rest with
      | nil => exact .inr (.inr ⟨rfl, rfl, .inr rfl⟩)
      | cons v2 _ => exact .inr (.inr ⟨rfl, rfl, .inl ⟨_, _, _, rfl⟩⟩)
    | pmessage =>
      match rest with
      | [] | [_] => exact .inr (.inr ⟨rfl, rfl, .inr rfl⟩)
      | _ :: _ :: _ => exact .inr (.inr ⟨rfl, rfl, .inl ⟨_, _, _, rfl⟩⟩)
    | unsubscribed reg => exact .inr (.inl ⟨rfl, rfl, _, _, .inl rfl, reg, rfl⟩)
    | subscribed reg => exact .inr (.inl ⟨rfl, rfl, _, _, .inr rfl, reg, rfl⟩)
    | other => exact .inr (.inr ⟨rfl, rfl, .inr rfl⟩)

theorem handlePush_reply (cache : Option σ) (values : List RedisMessage) :
    (handlePush cfg store hooks cache values).reply = isNotification values := by
  rcases handlePush_cases cfg store hooks cache values with
    ⟨v, -, hn, h⟩ | ⟨-, hn, _, _, -, _, h⟩ | ⟨-, hn, ⟨_, _, _, h⟩ | h⟩ <;> rw [h, hn] <;> rfl

theorem handlePush_unsubscribe (cache : Option σ) (values : List RedisMessage)
    (hreply : (handlePush cfg store hooks cache values).reply = false) :
    (handlePush cfg store hooks cache values).unsubscribe = false := by
  rcases handlePush_cases cfg store hooks cache values with
    ⟨v, -, -, h⟩ | ⟨-, hn, _⟩ | ⟨-, -, ⟨_, _, _, h⟩ | h⟩
  · rw [h]
    rfl
  · rw [handlePush_reply, hn] at hreply
    cases hreply
  · rw [h]
    rfl
  · rw [h]

theorem mem_orNone {b : Bool} {e e' : Effect} (h : e' ∈ orNone b e) : e' = e := by
  cases b
  · cases h
  · exact List.mem_singleton.mp h

theorem handlePush_effects (cache : Option σ) (values : List RedisMessage) (e : Effect)
    (he : e ∈ (handlePush cfg store hooks cache values).effects) :
    e.commits = false ∧ (∀ keys, e = .cacheDelete keys → isInvalidation values = true) := by
  rcases handlePush_cases cfg store hooks cache values with
    ⟨v, hi, -, h⟩ | ⟨-, -, apply, unsub, happly, reg, h⟩ | ⟨-, -, ⟨reg, channel, m, h⟩ | h⟩
  all_goals rw [h] at he
  · refine ⟨?_, fun _ _ => hi⟩
    rcases List.mem_append.mp he with he | he
    · rcases List.mem_append.mp he with he | he <;> rw [mem_orNone he] <;> rfl
    · rw [mem_orNone he]
      rfl
  · unfold handleSubscription at he
    split at he
    · rcases List.mem_cons.mp he with he | he
      · rcases happly with rfl | rfl <;> rw [he] <;> exact ⟨rfl, nofun⟩
      · rw [mem_orNone he]
        exact ⟨rfl, nofun⟩
    · cases he
  · rcases List.mem_cons.mp he with he | he
    · rw [he]
      exact ⟨rfl, nofun⟩
    · rw [mem_orNone he]
      exact ⟨rfl, nofun⟩
  · cases he

theorem replay_orNone {b : Bool} {e : Effect} (he : ∀ c : Option σ, applyEffect store c e = c)
    (cache : Option σ) : replay store cache (orNone b e) = cache := by
  cases b
  · rfl
  · exact he cache

theorem handlePush_replay (cache : Option σ) (values : List RedisMessage) :
    (handlePush cfg store hooks cache values).cache =
      replay store cache (handlePush cfg store hooks cache values).effects := by
  rcases handlePush_cases cfg store hooks cache values with
    ⟨v, -, -, h⟩ | ⟨-, -, apply, unsub, happly, reg, h⟩ | ⟨-, -, ⟨reg, channel, m, h⟩ | h⟩
  all_goals rw [h]
  · unfold handleInvalidate
    rw [replay_append, replay_append, replay_orNone store (fun _ => rfl),
      replay_orNone store (fun _ => rfl)]
    cases cache <;> rfl
  · unfold handleSubscription
    split
    · rw [replay_cons, replay_orNone store (fun _ => rfl)]
      rcases happly with rfl | rfl <;> rfl
    · rfl
  · exact (replay_orNone store (fun _ => rfl) cache).symm
  · rfl

end HandlePush

end Rueidis
