import Rueidis.Message

/-!
# Cache-aside clients

Any number of `rueidisaside` clients on one Redis.  A `Get` that misses leads the flight of its key,
or waits for the one that does.  The leader puts the id of its client as a placeholder on the key,
calls `fn`, and replaces the placeholder by the value (`setkey`), or removes it (`delkey`) when
something failed.  A `Get` that finds the placeholder of a client that is gone removes it.

The commands of a client are executed in order; a command may be lost, and a caller may give up at any
time.  `Lua.Exec` sends a script again when Redis does not know it; the first try then does nothing, so a
script is one command here.  What `DoCache` answers is left open.
-/

namespace Rueidis.Aside

def placeholderPrefix : Bytes := lit "rueidisid:"

/-- The marker ids, in the order in which they are made; `rand` is what `randStr` gives. -/
def marker (rand : Nat → Bytes) (n : Nat) : Bytes := placeholderPrefix ++ rand n

/-! ## Redis -/

abbrev Store := Bytes → Option Bytes

def Store.put (store : Store) (key : Bytes) (val : Option Bytes) : Store :=
  fun k => if k = key then val else store k

inductive Event where
  /-- The flight `f` of a client got its placeholder on the key. -/
  | acquired (client f : Nat) (key id : Bytes)
  /-- `setkey` of the flight wrote its value. -/
  | stored (client f : Nat) (key id val : Bytes)
  | changed (key : Bytes)
deriving DecidableEq, Repr

def Event.key : Event → Bytes
  | .acquired _ _ key _ | .stored _ _ key _ _ | .changed key => key

/-- The keys with their values, and what took effect, the latest at the end. -/
structure Redis where
  store : Store := fun _ => none
  log : List Event := []

/-- What clients send.  `acquire` is `SET` with `NX` and `GET`, or `acquireLock`. -/
inductive Op where
  | acquire (f : Nat) (key id : Bytes)
  | setkey (f : Nat) (key id val : Bytes)
  | delkey (key id : Bytes)
  | set (key val : Bytes)
  | del (key : Bytes)
deriving DecidableEq, Repr

inductive Answer where
  | nil
  | value (val : Bytes)
deriving DecidableEq, Repr

def Redis.change (r : Redis) (key : Bytes) (val : Option Bytes) (e : Event) : Redis :=
  ⟨r.store.put key val, r.log ++ [e]⟩

def Op.run (client : Nat) (r : Redis) : Op → Redis
  | .acquire f key id =>
    if r.store key = none then r.change key (some id) (.acquired client f key id) else r
  | .setkey f key id val =>
    if r.store key = some id then r.change key (some val) (.stored client f key id val) else r
  | .delkey key id => if r.store key = some id then r.change key none (.changed key) else r
  | .set key val => r.change key (some val) (.changed key)
  | .del key => r.change key none (.changed key)

/-- `acquire` answers with the value it found; the other answers are not looked at. -/
def Op.answer (r : Redis) : Op → Answer
  | .acquire _ key _ =>
    match r.store key with
    | none => .nil
    | some val => .value val
  | _ => .value (lit "OK")

/-! ## Get -/

inductive Result where
  | value (val : Bytes)
  | failed
deriving DecidableEq, Repr

/-- Where a `Get` is; `f` is the flight that it leads or follows and `n` the command it waits
for. -/
inductive Pc where
  | reading
  | following (f : Nat)
  | keepalive (f : Nat)
  | marking (f : Nat) (id : Bytes) (n : Nat)
  | marked (f : Nat) (id : Bytes)
  | ready (f : Nat) (id : Bytes)
  | acquiring (f : Nat) (id : Bytes) (n : Nat)
  | running (f : Nat) (id : Bytes)
  | storing (f : Nat) (id : Bytes) (n : Nat) (val : Bytes)
  | cleaning (f : Nat) (id : Bytes)
  | deleting (f n : Nat)
  | finishing (f : Nat) (r : Result)
  | checking (val : Bytes)
  | removing (n : Nat)
  | waiting
  | returned
deriving DecidableEq, Repr

structure Get where
  client : Nat
  key : Bytes
  hasFn : Bool
  pc : Pc := .reading
deriving DecidableEq, Repr

inductive Read where
  | nil
  | value (val : Bytes)
  | failed
deriving DecidableEq, Repr

inductive GetAct where
  | read (r : Read)
  | wake
  | giveUp
  | keepalive
  | mark
  | acquire
  | fail
  | fnReturn (r : Option Bytes)
  | cleanup
  | finish
  | check (r : Read)
  | resume
deriving DecidableEq, Repr

inductive Change where
  | none
  | issue (op : Op)
  | lead
  | finish
  | newId
  | keepId (id : Bytes)
deriving DecidableEq, Repr

def Pc.deliver (n : Nat) (answer : Answer) : Pc → Pc
  | .marking f id m => if m = n then .marked f id else .marking f id m
  | .acquiring f id m =>
    if m = n then
      match answer with
      | .nil => .running f id
      | .value val => .finishing f (.value val)
    else .acquiring f id m
  | .storing f id m val => if m = n then .finishing f (.value val) else .storing f id m val
  | .deleting f m => if m = n then .finishing f .failed else .deleting f m
  | .removing m => if m = n then .reading else .removing m
  | pc => pc

def Pc.ofValue (val : Bytes) : Pc :=
  if placeholderPrefix <+: val then .checking val else .returned

/-- A step; `own` is the id of the client, `flight` the flight of the key, `fresh` a new marker id
and `next` the number of a new flight or command. -/
def Get.step (g : Get) (own : Option Bytes) (flight : Option Nat) (fresh : Bytes) (next : Nat) :
    GetAct → Option (Pc × Change)
  | .read r =>
    if g.pc = .reading then
      match r with
      | .nil =>
        if g.hasFn then
          match flight with
          | none => some (.keepalive next, .lead)
          | some f => some (.following f, .none)
        else some (.returned, .none)
      | .value val => some (Pc.ofValue val, .none)
      | .failed => some (.returned, .none)
    else none
  | .wake =>
    match g.pc with
    | .following f => if flight = some f then none else some (.reading, .none)
    | _ => none
  | .giveUp =>
    match g.pc with
    | .following _ | .waiting => some (.returned, .none)
    | _ => none
  | .keepalive =>
    match g.pc with
    | .keepalive f =>
      match own with
      | some id => some (.ready f id, .none)
      | none => some (.marking f fresh next, .newId)
    | _ => none
  | .mark =>
    match g.pc with
    | .marked f id =>
      match own with
      | none => some (.ready f id, .keepId id)
      | some id' => some (.ready f id', .none)
    | _ => none
  | .acquire =>
    match g.pc with
    | .ready f id => some (.acquiring f id next, .issue (.acquire f g.key id))
    | _ => none
  | .fail =>
    match g.pc with
    | .marking f _ _ => some (.finishing f .failed, .none)
    | .acquiring f id _ => some (.cleaning f id, .none)
    | .storing f id _ _ => some (.cleaning f id, .none)
    | .deleting f _ => some (.finishing f .failed, .none)
    | .removing _ => some (.reading, .none)
    | _ => none
  | .fnReturn r =>
    match g.pc with
    | .running f id =>
      match r with
      | some val => some (.storing f id next val, .issue (.setkey f g.key id val))
      | none => some (.cleaning f id, .none)
    | _ => none
  | .cleanup =>
    match g.pc with
    | .cleaning f id => some (.deleting f next, .issue (.delkey g.key id))
    | _ => none
  | .finish =>
    match g.pc with
    | .finishing _ (.value val) => some (Pc.ofValue val, .finish)
    | .finishing _ .failed => some (.returned, .finish)
    | _ => none
  | .check r =>
    match g.pc with
    | .checking val =>
      match r with
      | .nil => some (.removing next, .issue (.delkey g.key val))
      | .value _ => some (.waiting, .none)
      | .failed => some (.returned, .none)
    | _ => none
  | .resume => if g.pc = .waiting then some (.reading, .none) else none

/-! ## The system -/

structure Command where
  n : Nat
  op : Op
deriving DecidableEq, Repr

structure System where
  redis : Redis := {}
  queue : Nat → List Command := fun _ => []
  id : Nat → Option Bytes := fun _ => none
  flights : Nat → Bytes → Option Nat := fun _ _ => none
  gets : List Get := []
  owners : List Nat := []
  next : Nat := 0

inductive AsideAct where
  | get (client : Nat) (key : Bytes) (hasFn : Bool)
  | act (t : Nat) (x : GetAct)
  | del (client : Nat) (key : Bytes)
  /-- `onInvalidation` after the connection broke. -/
  | invalidate (client : Nat)
  | refresh (n : Nat)
  | exec (client : Nat) (delivered : Bool)
  | lose (client i : Nat)
  | write (key : Bytes) (val : Option Bytes)
  | expire (key : Bytes)

namespace System

variable (s : System)

def setQueue (client : Nat) (cmds : List Command) : Nat → List Command :=
  fun c => if c = client then cmds else s.queue c

def setId (client : Nat) (id : Option Bytes) : Nat → Option Bytes :=
  fun c => if c = client then id else s.id c

def setFlight (client : Nat) (key : Bytes) (f : Option Nat) : Nat → Bytes → Option Nat :=
  fun c k => if c = client ∧ k = key then f else s.flights c k

def issue (client : Nat) (op : Op) : System :=
  { s with
    queue := s.setQueue client (s.queue client ++ [⟨s.next, op⟩])
    next := s.next + 1 }

def change (rand : Nat → Bytes) (client : Nat) (key : Bytes) : Change → System
  | .none => s
  | .issue op => s.issue client op
  | .lead => { s with flights := s.setFlight client key (some s.next), next := s.next + 1 }
  | .finish => { s with flights := s.setFlight client key none }
  | .newId =>
    { s.issue client (.set (marker rand s.owners.length) []) with owners := s.owners ++ [client] }
  | .keepId id => { s with id := s.setId client (some id) }

end System

def System.step (rand : Nat → Bytes) (s : System) : AsideAct → Option System
  | .get client key hasFn => some { s with gets := s.gets ++ [{ client, key, hasFn }] }
  | .act t x =>
    match s.gets[t]? with
    | none => none
    | some g =>
      match g.step (s.id g.client) (s.flights g.client g.key) (marker rand s.owners.length) s.next
          x with
      | none => none
      | some (pc, ch) => some { s.change rand g.client g.key ch with
          gets := s.gets.set t { g with pc } }
  | .del client key => some (s.issue client (.del key))
  | .invalidate client =>
    match s.id client with
    | none => some s
    | some id => some { s.issue client (.del id) with id := s.setId client none }
  | .refresh n =>
    match s.owners[n]? with
    | none => none
    | some client => some (s.issue client (.set (marker rand n) []))
  | .exec client delivered =>
    match s.queue client with
    | [] => none
    | cmd :: rest => some { s with
        redis := cmd.op.run client s.redis
        queue := s.setQueue client rest
        gets := if delivered then
            s.gets.map fun g => { g with pc := g.pc.deliver cmd.n (cmd.op.answer s.redis) }
          else s.gets }
  | .lose client i => some { s with queue := s.setQueue client ((s.queue client).eraseIdx i) }
  | .write key val => some { s with redis := s.redis.change key val (.changed key) }
  | .expire key => some { s with redis := s.redis.change key none (.changed key) }

end Rueidis.Aside
