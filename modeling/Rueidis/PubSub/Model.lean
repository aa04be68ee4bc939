import Rueidis.Library.Machine
import Rueidis.Pipe.Push

/-!
# The table of subscriptions

`pubsub.go`: a subscription is found by its id and by every channel it lists.  Each section under the
lock is one step; `Subscribe` draws its id before it takes the lock, and `Close` closes the channels
after it has released the lock.  A map is a function, and a loop over a map runs in any order.
-/

namespace Rueidis.PubSub

/-- A subscription object with its Go channel: what was sent to it, and what its callback was
told. -/
structure Sub where
  cs : List Bytes
  fn : Bool
  closed : Bool := false
  sent : List PubSubMessage := []
  told : List PubSubSubscription := []
deriving DecidableEq, Repr

abbrev Ids := Nat → Option Nat

/-- `chs` is nil after `Close`.  Of the calls there are the ids drawn by `Subscribe` that have not
been entered and the channels that a `Close` has yet to close. -/
structure Subs where
  chs : Option (Bytes → Option Ids) := some fun _ => none
  sub : Ids := fun _ => none
  cnt : Nat := 0
  objects : List Sub := []
  drawn : List Nat := []
  closing : List Nat := []
  panicked : Bool := false

namespace Subs

def listed (s : Subs) (channel : Bytes) : Ids :=
  match s.chs with
  | none => fun _ => none
  | some chs => (chs channel).getD fun _ => none

/-- `close(sb.ch)`; closing a closed channel panics. -/
def closeCh (s : Subs) (p : Nat) : Subs :=
  match s.objects[p]? with
  | none => { s with panicked := true }
  | some o =>
    if o.closed then { s with panicked := true }
    else { s with objects := s.objects.set p { o with closed := true } }

/-- `sb.ch <- msg`; sending to a closed channel panics. -/
def send (s : Subs) (p : Nat) (msg : PubSubMessage) : Subs :=
  match s.objects[p]? with
  | none => { s with panicked := true }
  | some o =>
    if o.closed then { s with panicked := true }
    else { s with objects := s.objects.set p { o with sent := o.sent ++ [msg] } }

/-- `sb.fn(sub)`, unless there is no callback. -/
def tell (s : Subs) (p : Nat) (sub : PubSubSubscription) : Subs :=
  match s.objects[p]? with
  | none => { s with panicked := true }
  | some o =>
    if o.fn then { s with objects := s.objects.set p { o with told := o.told ++ [sub] } }
    else s

def enter (id p : Nat) (chs : Bytes → Option Ids) (channel : Bytes) : Bytes → Option Ids :=
  Function.update chs channel
    (some (Function.update ((chs channel).getD fun _ => none) id (some p)))

def leave (id : Nat) (chs : Bytes → Option Ids) (channel : Bytes) : Bytes → Option Ids :=
  match chs channel with
  | none => chs
  | some c => Function.update chs channel (some (Function.update c id none))

/-- The locked section of `Subscribe`; after `Close` there is no channel to return. -/
def subscribe (s : Subs) (id : Nat) (channels : List Bytes) (fn : Bool) : Subs :=
  match s.chs with
  | none => s
  | some chs =>
    { s with
      objects := s.objects ++ [{ cs := channels, fn := fn }]
      sub := Function.update s.sub id (some s.objects.length)
      chs := some (channels.foldl (enter id s.objects.length) chs) }

def remove (s : Subs) (id : Nat) : Subs :=
  match s.sub id with
  | none => s
  | some p =>
    let cs := (s.objects[p]?.map (·.cs)).getD []
    let s := { s with chs := s.chs.map fun chs => cs.foldl (leave id) chs }
    let s := s.closeCh p
    { s with sub := Function.update s.sub id none }

def cancel (s : Subs) (id : Nat) : Subs :=
  match s.chs with
  | none => s
  | some _ => s.remove id

/-- The body of a loop over `s.chs[channel].sub`: an entry that is gone when its turn comes is not
produced. -/
def visit (channel : Bytes) (body : Subs → Nat → Nat → Subs) (s : Subs) (id : Nat) : Subs :=
  match s.listed channel id with
  | none => s
  | some p => body s id p

def publish (s : Subs) (channel : Bytes) (msg : PubSubMessage) (order : List Nat) : Subs :=
  if s.cnt = 0 then s
  else order.foldl (visit channel fun s _ p => s.send p msg) s

def confirm (s : Subs) (sub : PubSubSubscription) (order : List Nat) : Subs :=
  if s.cnt = 0 then s
  else order.foldl (visit sub.channel fun s _ p => s.tell p sub) s

def unsubscribe (s : Subs) (sub : PubSubSubscription) (order : List Nat) : Subs :=
  if s.cnt = 0 then s
  else
    let s := order.foldl (visit sub.channel fun s id p => (s.tell p sub).remove id) s
    { s with chs := s.chs.map fun chs => Function.update chs sub.channel none }

def close (s : Subs) : Subs :=
  { s with
    chs := none
    sub := fun _ => none
    closing := s.closing ++ (List.range (s.cnt + 1)).filterMap s.sub }

end Subs

/-- An order in which a loop may run over a map whose keys are at most `cnt`. -/
def Ranges (cnt : Nat) (m : Ids) (order : List Nat) : Prop :=
  order.Nodup ∧ (∀ id ∈ order, m id ≠ none) ∧ ∀ id ∈ List.range (cnt + 1), m id ≠ none → id ∈ order

instance (cnt : Nat) (m : Ids) (order : List Nat) : Decidable (Ranges cnt m order) :=
  inferInstanceAs (Decidable (_ ∧ _ ∧ _))

inductive Event where
  | draw
  | subscribe (id : Nat) (channels : List Bytes) (fn : Bool)
  | cancel (id : Nat)
  | publish (channel : Bytes) (msg : PubSubMessage) (order : List Nat)
  | confirm (sub : PubSubSubscription) (order : List Nat)
  | unsubscribe (sub : PubSubSubscription) (order : List Nat)
  | close
  | closeCh (p : Nat)
deriving DecidableEq, Repr

def apply (s : Subs) : Event → Option Subs
  | .draw => some { s with cnt := s.cnt + 1, drawn := (s.cnt + 1) :: s.drawn }
  | .subscribe id channels fn =>
    if id ∈ s.drawn then
      some ({ s with drawn := s.drawn.erase id }.subscribe id channels fn)
    else none
  | .cancel id => some (s.cancel id)
  | .publish channel msg order =>
    if Ranges s.cnt (s.listed channel) order then some (s.publish channel msg order) else none
  | .confirm sub order =>
    if Ranges s.cnt (s.listed sub.channel) order then some (s.confirm sub order) else none
  | .unsubscribe sub order =>
    if Ranges s.cnt (s.listed sub.channel) order then some (s.unsubscribe sub order) else none
  | .close => some s.close
  | .closeCh p =>
    if p ∈ s.closing then some ({ s with closing := s.closing.erase p }.closeCh p) else none

/-- A program that has panicked does nothing more. -/
def step (s : Subs) (e : Event) : Option Subs := if s.panicked then none else apply s e

/-! ## What the table is for -/

structure Subscription where
  id : Nat
  cs : List Bytes
  active : Bool
deriving DecidableEq, Repr

structure Users where
  subs : List Subscription := []
  closed : Bool := false
deriving DecidableEq, Repr

def Users.over (u : Users) (p : Subscription → Bool) : Users :=
  { u with subs := u.subs.map fun x => { x with active := x.active && !p x } }

/-- A subscription ends by its own cancel, by a notification for any of its channels, or by
`Close`. -/
def Users.step (u : Users) : Event → Users
  | .subscribe id channels _ =>
    if u.closed then u else { u with subs := u.subs ++ [⟨id, channels, true⟩] }
  | .cancel id => u.over fun x => x.id == id
  | .unsubscribe sub _ => u.over fun x => x.cs.contains sub.channel
  | .close => { u.over fun _ => true with closed := true }
  | _ => u

def both (s : Subs × Users) (e : Event) : Option (Subs × Users) :=
  (step s.1 e).map fun t => (t, s.2.step e)

end Rueidis.PubSub
