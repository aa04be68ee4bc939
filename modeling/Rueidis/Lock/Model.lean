import Rueidis.Library.Decimal
import Rueidis.Message

/-!
# Distributed locks

Any number of lockers of one prefix and majority on one Redis.  A call of `WithContext`,
`TryWithContext` or `ForceWithContext` takes a gate and makes an attempt (`try`): it acquires keys
one by one until it has a majority or cannot get one any more, leaves the rest to a goroutine, and
starts a monitor for every key.  The monitors extend the keys and, when that fails or the context is
cancelled, delete them; the last one gives the gate back.

A step is a script in Redis, an atomic counter, or a section under the lock of the locker.
-/

namespace Rueidis.Lock

/-- The options that all lockers share; `NewLocker` puts 2 for a majority that is not positive. -/
structure LockOption where
  keyPrefix : Bytes
  majority : Nat
  one_le_majority : 1 ≤ majority

def LockOption.totalcnt (opt : LockOption) : Nat := opt.majority * 2 - 1

def keyname (opt : LockOption) (name : Bytes) (i : Nat) : Bytes :=
  opt.keyPrefix ++ lit ":" ++ Decimal.numeral i ++ lit ":" ++ name

/-! ## Redis -/

/-- The values are the random strings of the attempts, which are different: an attempt's number. -/
abbrev Store := Bytes → Option Nat

/-- The scripts that change a key: `acqat` and `acqms`, with `force` `fcqat` and `fcqms`, and
`delkey`.  `extend` changes the expiry only. -/
inductive Script where
  | set (key : Bytes) (val : Nat) (force : Bool)
  | del (key : Bytes) (val : Nat)
deriving DecidableEq, Repr

def Store.put (store : Store) (key : Bytes) (val : Option Nat) : Store :=
  fun k => if k = key then val else store k

def Script.run (store : Store) : Script → Store
  | .set key val force => if force ∨ store key = none then store.put key (some val) else store
  | .del key val => if store key = some val then store.put key none else store

/-- How a call of a script ends.  The client sends a script again when the connection broke, so it
may run twice before it is answered.  A call that timed out may still run its script, at once or
later. -/
inductive Outcome where
  | replied
  | retried
  | lost
  | failed
deriving DecidableEq, Repr

def Outcome.answered : Outcome → Bool
  | .replied | .retried => true
  | .lost | .failed => false

/-! ## Attempts -/

inductive Kind where
  | waiting
  | once
  | force
deriving DecidableEq, Repr

inductive LockErr where
  | none
  | notLocked
  | other
deriving DecidableEq, Repr

/-- A monitor: it watches its key, is about to delete it, to count itself as released, or to cancel
the context; `last` for the one that found all others released. -/
inductive MonitorPc where
  | watching
  | deleting
  | releasing
  | cancelling (last : Bool)
  | finished
deriving DecidableEq, Repr

structure Monitor where
  ok : Bool
  pc : MonitorPc
deriving DecidableEq, Repr

inductive LastPc where
  | idle
  | loading
  | gating
  | closing
  | done
deriving DecidableEq, Repr

/-- The call: in the loop, between `acquire` and the counter, before `canceltm.Stop`, waiting for
the monitors, back from a failed `try`, or over.  `held` is a call that returned its context. -/
inductive TryPc where
  | acquiring
  | counting (ok : Bool)
  | stopping
  | awaiting
  | failed
  | held
  | ended
deriving DecidableEq, Repr

inductive Timer where
  | armed
  | fired
  | stopped
deriving DecidableEq, Repr

structure Attempt where
  val : Nat
  locker : Nat
  name : Bytes
  kind : Kind
  gate : Nat
  pc : TryPc := .acquiring
  err : LockErr := .none
  acquired : Nat := 0
  failures : Nat := 0
  released : Nat := 0
  cancelled : Bool := false
  timer : Timer := .armed
  /-- The monitor of key `i` is at position `i`. -/
  monitors : List Monitor := []
  background : Bool := false
  last : LastPc := .idle
  left : Bool := false
deriving DecidableEq, Repr

inductive Drop where
  | keep
  | decrement
  | remove
deriving DecidableEq, Repr

/-- What a step does outside of the attempt: a script that runs, one that may run later, and the
gate. -/
structure Effect where
  ran : Option Script := none
  late : Option Script := none
  drop : Drop := .keep
deriving DecidableEq, Repr

def Effect.ofCall (script : Script) : Outcome → Effect
  | .failed => { late := some script }
  | _ => { ran := some script }

inductive AttemptAct where
  | acquire (out : Outcome)
  | count
  | endLoop
  | acquireRest (out : Outcome)
  | stop
  | awaitDone
  | removegate
  | leave
  | fire
  | cancel
  | ctxDone (i : Nat)
  | extend (i : Nat) (out : Outcome)
  | delkey (i : Nat) (out : Outcome)
  | release (i : Nat)
  | cancelAt (i : Nat)
  | load
  | giveBack
  | closeDone
deriving DecidableEq, Repr

namespace Attempt

variable (opt : LockOption) (store : Store) (a : Attempt)

def goesOn : Bool := decide (a.acquired < opt.majority) && decide (a.failures < opt.majority)

def key (i : Nat) : Bytes := keyname opt a.name i

def setScript : Script := .set (a.key opt a.monitors.length) a.val (a.kind == .force)

/-- The error of `acquire` for the next key.  Once a key is held by others no other is asked for. -/
def acquireErr (out : Outcome) : LockErr :=
  if a.err = .notLocked then .notLocked
  else match out with
    | .replied =>
      if a.kind = .force ∨ store (a.key opt a.monitors.length) = none then .none else .notLocked
    -- the second run finds the key that the first one has set
    | .retried => if a.kind = .force then .none else .notLocked
    | .lost | .failed => .other

def acquireEffect (out : Outcome) : Effect :=
  if a.err = .notLocked then {} else Effect.ofCall (a.setScript opt) out

def newMonitor (err : LockErr) : Monitor :=
  match err with
  | .none => ⟨true, .watching⟩
  | .notLocked => ⟨false, .releasing⟩
  | .other => ⟨false, .deleting⟩

def acquireNext (out : Outcome) : Attempt :=
  { a with
    err := a.acquireErr opt store out
    monitors := a.monitors ++ [newMonitor (a.acquireErr opt store out)] }

def setMonitor (i : Nat) (m : Monitor) : Attempt := { a with monitors := a.monitors.set i m }

def step : AttemptAct → Option (Attempt × Effect)
  | .acquire out =>
    if a.pc = .acquiring ∧ a.goesOn opt then
      some ({ a.acquireNext opt store out with
        pc := .counting (a.acquireErr opt store out == .none) }, a.acquireEffect opt out)
    else none
  | .count =>
    match a.pc with
    | .counting true => some ({ a with pc := .acquiring, acquired := a.acquired + 1 }, {})
    | .counting false => some ({ a with pc := .acquiring, failures := a.failures + 1 }, {})
    | _ => none
  | .endLoop =>
    if a.pc = .acquiring ∧ ¬ a.goesOn opt then
      some ({ a with
        pc := .stopping
        background := decide (a.monitors.length < opt.totalcnt) }, {})
    else none
  | .acquireRest out =>
    if a.background ∧ a.monitors.length < opt.totalcnt then
      some (a.acquireNext opt store out, a.acquireEffect opt out)
    else none
  | .stop =>
    if a.pc = .stopping then
      if a.timer = .armed ∧ a.failures < opt.majority then
        some ({ a with timer := .stopped, pc := .held }, {})
      else
        some ({ a with timer := if a.timer = .armed then .stopped else a.timer, pc := .awaiting }, {})
    else none
  | .awaitDone =>
    if a.pc = .awaiting ∧ a.last = .done then some ({ a with pc := .failed }, {}) else none
  | .removegate =>
    if a.pc = .failed then
      some ({ a with pc := .ended, cancelled := true, left := true }, { drop := .remove })
    else none
  | .leave =>
    if a.pc = .failed ∧ a.kind = .waiting then
      some ({ a with pc := .ended, cancelled := true, left := true }, { drop := .decrement })
    else none
  | .fire =>
    if a.timer = .armed then some ({ a with timer := .fired, cancelled := true }, {}) else none
  | .cancel => some ({ a with cancelled := true }, {})
  | .ctxDone i =>
    match a.monitors[i]? with
    | some ⟨ok, .watching⟩ =>
      if a.cancelled then some (a.setMonitor i ⟨ok, .deleting⟩, {}) else none
    | _ => none
  | .extend i out =>
    match a.monitors[i]? with
    | some ⟨ok, .watching⟩ =>
      if out.answered then
        if store (a.key opt i) = some a.val then some (a, {})
        else some (a.setMonitor i ⟨ok, .releasing⟩, {})
      else some (a.setMonitor i ⟨ok, .deleting⟩, {})
    | _ => none
  | .delkey i out =>
    match a.monitors[i]? with
    | some ⟨ok, .deleting⟩ =>
      some (a.setMonitor i ⟨ok, .releasing⟩, Effect.ofCall (.del (a.key opt i) a.val) out)
    | _ => none
  | .release i =>
    match a.monitors[i]? with
    | some ⟨ok, .releasing⟩ =>
      some ({ a.setMonitor i ⟨ok,
          if opt.majority ≤ a.released + 1 then
            .cancelling (a.released + 1 == opt.totalcnt) else .finished⟩ with
        released := a.released + 1 }, {})
    | _ => none
  | .cancelAt i =>
    match a.monitors[i]? with
    | some ⟨ok, .cancelling last⟩ =>
      some ({ a.setMonitor i ⟨ok, .finished⟩ with
        cancelled := true
        last := if last then .loading else a.last }, {})
    | _ => none
  | .load =>
    if a.last = .loading then
      some ({ a with last := if a.failures < opt.majority then .gating else .closing }, {})
    else none
  | .giveBack =>
    if a.last = .gating then
      some ({ a with last := .closing, left := true }, { drop := .remove })
    else none
  | .closeDone => if a.last = .closing then some ({ a with last := .done }, {}) else none

end Attempt

/-! ## The system -/

structure Gate where
  locker : Nat
  name : Bytes
  w : Int := 0
deriving DecidableEq, Repr

structure System where
  store : Store := fun _ => none
  late : List Script := []
  /-- `m.gates` of every locker; gates are numbers. -/
  gates : Nat → Bytes → Option Nat := fun _ _ => none
  gate : List Gate := []
  attempts : List Attempt := []

inductive LockAct where
  | start (locker : Nat) (name : Bytes) (kind : Kind)
  | act (t : Nat) (x : AttemptAct)
  | runLate (k : Nat)
  | expire (key : Bytes)

namespace System

variable (s : System)

def setGate (locker : Nat) (name : Bytes) (g : Option Nat) : Nat → Bytes → Option Nat :=
  fun l n => if l = locker ∧ n = name then g else s.gates l n

def addW (g : Nat) (d : Int) : List Gate := s.gate.modify g fun gate => { gate with w := gate.w + d }

def getgate (locker : Nat) (name : Bytes) : Nat × System :=
  match s.gates locker name with
  | some g => (g, { s with gate := s.addW g 1 })
  | none => (s.gate.length, { s with
      gates := s.setGate locker name (some s.gate.length)
      gate := s.gate ++ [⟨locker, name, 1⟩] })

def dropGate (a : Attempt) (d : Drop) : System :=
  match d with
  | .keep => s
  | .decrement => { s with gate := s.addW a.gate (-1) }
  | .remove => { s with
      gate := s.addW a.gate (-1)
      gates := if ((s.addW a.gate (-1))[a.gate]?.any fun g => g.w == 0) ∧
          s.gates a.locker a.name = some a.gate then s.setGate a.locker a.name none
        else s.gates }

def apply (a : Attempt) (e : Effect) : System :=
  { s.dropGate a e.drop with
    store := e.ran.elim s.store (·.run s.store)
    late := s.late ++ e.late.toList }

end System

def System.step (opt : LockOption) (s : System) : LockAct → Option System
  | .start locker name kind => some {
      (s.getgate locker name).2 with
      attempts := s.attempts ++ [{
        val := s.attempts.length
        locker := locker
        name := name
        kind := kind
        gate := (s.getgate locker name).1 }] }
  | .act t x =>
    match s.attempts[t]? with
    | none => none
    | some a =>
      match a.step opt s.store x with
      | none => none
      | some (a', e) => some { s.apply a e with attempts := s.attempts.set t a' }
  | .runLate k =>
    match s.late[k]? with
    | none => none
    | some script => some { s with store := script.run s.store, late := s.late.eraseIdx k }
  | .expire key => some { s with store := s.store.put key none }

end Rueidis.Lock
