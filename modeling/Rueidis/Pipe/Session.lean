import Rueidis.Pipe.ReadLoop

/-!
# Sessions of a connection

The server answers the commands in the order in which they were written.  A SUBSCRIBE has one push
for each of its channels, or an error.  An UNSUBSCRIBE has any number of pushes and no reply, or an
error; `_backgroundWrite` sends a PING behind it, so that its end can be seen.  Between the answers
the server sends pushes of its own: messages, invalidations, and notifications that a subscription
has ended.
-/

namespace Rueidis

/-! ## Results -/

/-- Where the result of a command goes: the channel of its call, the index in the results of a
batch, and whether it is the last of its call, which is also sent on the channel. -/
structure Place where
  ch : Nat
  slot : Option Nat
  last : Bool
deriving DecidableEq, Repr

def Place.gets (p : Place) (m : RedisMessage) : List Effect :=
  (p.slot.toList.map fun i => .fulfill p.ch i (newResult m none)) ++
    if p.last then [.deliver p.ch (newResult m none)] else []

def placed (cmds : List Completed) (batch : Bool) (ch : Nat) : List (Completed × Place) :=
  cmds.mapIdx fun i cmd => (cmd, ⟨ch, if batch then some i else none, i + 1 = cmds.length⟩)

namespace Call

def cmds : Call → List Completed
  | one cmd _ => [cmd]
  | multi cmds _ => cmds

def commands : Call → List (Completed × Place)
  | one cmd ch => placed [cmd] false ch
  | multi cmds ch => placed cmds true ch

end Call

structure Uncached (cmds : List Completed) : Prop where
  optIn : (cmds.headD {}).isOptIn = false
  staticTTL : ∀ cmd ∈ cmds.tail, cmd.isStaticTTL = false

structure Call.Plain (call : Call) : Prop extends Uncached call.cmds where
  nonempty : call.cmds ≠ []

def Effect.isResult : Effect → Bool
  | .fulfill .. => true
  | .deliver .. => true
  | _ => false

/-! ## Answers -/

def IsError (m : RedisMessage) : Prop :=
  (m.typ = typeSimpleErr ∨ m.typ = typeBlobErr) ∧ m.array = none

/-- The error texts that also a PING gets: of a server that is loading or busy, and of one that does
not let the user run a PING. -/
def RefusesPing (text : Bytes) : Prop :=
  (lit "LOADING").isPrefixOf text ∨ (lit "BUSY").isPrefixOf text ∨ containsBytes text (lit "'ping'")

def IsPingReply (m : RedisMessage) : Prop :=
  (m.typ = typeSimpleString ∧ m.string = lit "PONG") ∨ IsError m

def IsPong (m : RedisMessage) : Prop :=
  m.string = lit "PONG" ∨ (m.typ = typeSimpleErr ∧ RefusesPing m.string)

def IsSubscribed (m : RedisMessage) : Prop :=
  m.typ = typePush ∧ ∃ kind channel rest reg, m.values = kind :: channel :: rest ∧
    pushKind kind.string = .subscribed reg

def OutOfBand (m : RedisMessage) : Prop := m.typ = typePush ∧ ¬ IsSubscribed m

/-- The answer to a command.  The pushes of an UNSUBSCRIBE are left out: they are like those that
come on their own. -/
inductive Answer where
  | replied (m : RedisMessage)
  | subscribed (m : RedisMessage) (others : List RedisMessage)
  | notSubscribed (m : RedisMessage)
  | unsubscribed (pong : RedisMessage)
  | notUnsubscribed (m pong : RedisMessage)

namespace Answer

def first : Answer → RedisMessage
  | replied m => m
  | subscribed m _ => m
  | notSubscribed m => m
  | unsubscribed pong => pong
  | notUnsubscribed m _ => m

def rest : Answer → List RedisMessage
  | subscribed _ others => others
  | notUnsubscribed _ pong => [pong]
  | _ => []

/-- What the caller gets: nothing for a confirmed SUBSCRIBE, and for an UNSUBSCRIBE the PONG. -/
def result : Answer → RedisMessage
  | replied m => m
  | subscribed _ _ => {}
  | notSubscribed m => m
  | unsubscribed pong => (isUnsubReply pong).2
  | notUnsubscribed m _ => m

def Answers (cmd : Completed) : Answer → Prop
  | replied m => cmd.noReply = false ∧ m.typ ≠ typePush
  | subscribed m others =>
    cmd.noReply = true ∧ cmd.isUnsub = false ∧ cmd.commands.length = others.length + 2 ∧
      ∀ x ∈ m :: others, IsSubscribed x
  | notSubscribed m =>
    cmd.noReply = true ∧ cmd.isUnsub = false ∧ 2 ≤ cmd.commands.length ∧ IsError m
  | unsubscribed pong => cmd.isUnsub = true ∧ IsPingReply pong
  | notUnsubscribed m pong =>
    cmd.isUnsub = true ∧ IsError m ∧ ¬ RefusesPing m.string ∧ IsPingReply pong

/-- The loop can tell the messages of the answer apart: the reply of a PING is known as one, and the
error of a SUBSCRIBE or UNSUBSCRIBE has neither the text of a queued command nor that of a PONG. -/
def Recognised : Answer → Prop
  | replied _ => True
  | subscribed _ _ => True
  | notSubscribed m => m.string ≠ lit "QUEUED"
  | unsubscribed pong => IsPong pong
  | notUnsubscribed m pong => m.string ≠ lit "QUEUED" ∧ m.string ≠ lit "PONG" ∧ IsPong pong

end Answer

/-! ## Sessions -/

inductive LoopEvent (σ : Type) where
  | written (call : Call)
  | cached (c : σ)
  | arrived (env : Env) (m : RedisMessage)

def LoopEvent.message {σ : Type} : LoopEvent σ → Option RedisMessage
  | .arrived _ m => some m
  | _ => none

section Session

variable {σ : Type}

/-- The events of a session.  `owed` are the commands that have no answer yet, `due` are the
messages that are left of an answer, and the last list says what each place is to get, in order.  A
command is only answered after it was written, and no push comes between the confirmations of a
SUBSCRIBE. -/
inductive Session (ok : Answer → Prop) :
    List (Completed × Place) → List RedisMessage → List (LoopEvent σ) →
      List (Place × RedisMessage) → Prop where
  | ends (owed : List (Completed × Place)) (due : List RedisMessage) : Session ok owed due [] []
  | written {owed due evs given} (call : Call) (hcall : call.Plain)
      (h : Session ok (owed ++ call.commands) due evs given) :
      Session ok owed due (.written call :: evs) given
  | cached {owed due evs given} (c : σ) (h : Session ok owed due evs given) :
      Session ok owed due (.cached c :: evs) given
  | pushed {owed due evs given} (env : Env) (m : RedisMessage) (hm : OutOfBand m)
      (hdue : ∀ x ∈ due, ¬ IsSubscribed x) (h : Session ok owed due evs given) :
      Session ok owed due (.arrived env m :: evs) given
  | answered {owed evs given} (env : Env) (cmd : Completed) (place : Place) (a : Answer)
      (ha : a.Answers cmd) (hok : ok a) (h : Session ok owed a.rest evs given) :
      Session ok ((cmd, place) :: owed) [] (.arrived env a.first :: evs) ((place, a.result) :: given)
  | continued {owed due evs given} (env : Env) (m : RedisMessage)
      (h : Session ok owed due evs given) :
      Session ok owed (m :: due) (.arrived env m :: evs) given

inductive Reads : Bytes → List RedisMessage → Prop where
  | nil (r : Bytes) : Reads r []
  | cons {r r' : Bytes} {m : RedisMessage} {ms : List RedisMessage}
      (hread : readNextMessage r = (.ok m, r')) (h : Reads r' ms) : Reads r (m :: ms)

variable (cfg : PipeConfig) (store : CacheStore σ)

def play : ReadLoop σ → List (LoopEvent σ) → Turn σ
  | st, [] => ⟨.next, st, []⟩
  | st, .written call :: evs => play { st with queue := st.queue ++ [call] } evs
  | st, .cached c :: evs => play { st with cache := st.cache.map fun _ => c } evs
  | st, .arrived env _ :: evs =>
    let t := readStep cfg store env st
    match t.flow with
    | .next =>
      let u := play t.st evs
      { u with effects := t.effects ++ u.effects }
    | _ => t

end Session

end Rueidis
