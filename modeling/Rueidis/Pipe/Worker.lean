import Rueidis.Commands
import Rueidis.Library.Machine

/-!
# The background worker of a pipe

A call that is alone on the connection is executed by its own goroutine.  Other calls go to the
queue; the background worker, which is started when the first of them needs it, writes them and reads
their replies.  Callers and worker hand over through three words: a counter of the calls that are
under way, `state` and `bgState`.  Each atomic operation on them and each operation on the queue is
one step.
-/

namespace Rueidis

/-! ## The counter -/

def waitsOf (wrCounter : UInt64) : UInt32 := wrCounter.toUInt32

def decrLo : UInt64 := ~~~0

/-- Added to decrement the low half and increment the high half, which counts the answered calls. -/
def decrLoIncrHi : UInt64 := ((1 : UInt64) <<< 32) - 1

/-! ## Calls -/

inductive Request where
  | one (cmd : Completed)
  | multi (cmds : List Completed)
deriving Repr

structure Ctx where
  deadline : Bool := false
  done : Bool := false
deriving Repr

def Request.needsWorker (ctx : Ctx) : Request → Bool
  | one cmd =>
    cmd.noReply || ((!ctx.deadline || (cmd.isUnblockOnCancel && cmd.isBlock)) && ctx.done)
  | multi cmds =>
    (cmds.headD {}).isOptIn || cmds.any (·.noReply) || (!ctx.deadline && ctx.done)

/-- What a call does when it comes back from `startBackground`. -/
inductive After where
  | queue
  | leave
  | done
deriving DecidableEq, Repr

inductive Pc where
  | entered (waits : UInt32)
  | sync
  /-- In `startBackground`, before the first CAS. -/
  | casState (skipReadWrite : Bool) (after : After)
  /-- In `startBackground`, between the two. -/
  | casBgState (skipReadWrite : Bool) (after : After)
  /-- Before the decrement; `zero` says whether the call has loaded a `state` of 0. -/
  | leaving (zero : Bool)
  | queueing
  | refused
  /-- The command is in the queue.  After an abort a goroutine waits in place of the caller. -/
  | waiting (aborted : Bool)
  | answered
  | returned
deriving DecidableEq, Repr

def After.pc : After → Pc
  | queue => .queueing
  | leave => .leaving true
  | done => .returned

/-- `own` is the goroutine that sends the worker's own PING. -/
structure Thread where
  req : Request
  ctx : Ctx
  pc : Pc
  own : Bool := false
deriving Repr

def afterLoad (req : Request) (ctx : Ctx) (waits : UInt32) (state : Nat) : Pc :=
  if state = 1 then .queueing
  else if state = 0 then
    -- another call may be using the connection
    if waits ≠ 1 then .queueing
    else if req.needsWorker ctx then .casState false .queue
    else .sync
  -- the pipe has failed, and the call returns its error
  else .leaving false

/-! ## The worker -/

inductive WorkerPc where
  | idle
  /-- Started only to clean up, before `_exit`. -/
  | skipping
  /-- The same, before it closes `p.close`. -/
  | closing
  | reading
  | failed
  | selecting
  | pinging
  | cleaning
  | draining
  | freeing
  | freed
  | awaiting
  | ended
deriving DecidableEq, Repr

inductive WriterPc where
  | none
  | writing
  | failed
  | closing
  | gone
deriving DecidableEq, Repr

/-- The commands in the queue are named by their calls; in which order the queue gives them out does
not matter here.  `hand` is the one that the worker has taken and that has no result yet, and
`closed` says whether `p.close` is closed. -/
structure PipeSystem where
  wrCounter : UInt64 := 0
  state : Nat := 0
  bgState : Nat := 0
  threads : List Thread := []
  unwritten : List Nat := []
  written : List Nat := []
  hand : Option Nat := none
  worker : WorkerPc := .idle
  writer : WriterPc := .none
  closed : Bool := false

namespace PipeSystem

def setPc (s : PipeSystem) (i : Nat) (t : Thread) (pc : Pc) : PipeSystem :=
  { s with threads := s.threads.set i { t with pc := pc } }

/-- The CAS of `_exit`: no new calls are taken. -/
def exit (s : PipeSystem) : PipeSystem := { s with state := if s.state = 1 then 2 else s.state }

/-- The second CAS of `startBackground`. -/
def startWorker (s : PipeSystem) (skipReadWrite : Bool) : PipeSystem :=
  if s.bgState = 0 then
    { s with
      bgState := 1
      worker := if skipReadWrite then .skipping else .reading
      writer := if skipReadWrite then .none else .writing }
  else s

end PipeSystem

/-! ## Steps -/

inductive ThreadAct where
  | load
  /-- The call is through with the connection; `failed` when it went through `failSync`. -/
  | synced (failed : Bool)
  | casState
  | casBgState
  | put
  | refuse
  | abort
  | leave
deriving Repr

inductive WorkerAct where
  | exit
  | close
  /-- `NextResultCh` of the read loop. -/
  | take (i : Nat)
  | deliver
  | fail
  | select
  | ping
  | loadWaits
  | drain (i : Option Nat)
  | free (i : Option Nat)
  | finish
deriving Repr

inductive WriterAct where
  | take (i : Nat)
  | fail
  | exit
  | close
deriving Repr

inductive PipeAct where
  | call (req : Request) (ctx : Ctx)
  | thread (i : Nat) (a : ThreadAct)
  | worker (a : WorkerAct)
  | writer (a : WriterAct)
  /-- A timer calls `_exit`. -/
  | timer
deriving Repr

def threadStep (s : PipeSystem) (i : Nat) (t : Thread) (a : ThreadAct) : Option PipeSystem :=
  match a, t.pc with
  | .load, .entered waits => some (s.setPc i t (afterLoad t.req t.ctx waits s.state))
  -- `failSync` starts the worker before the call decrements the counter
  | .synced failed, .sync =>
    some (s.setPc i t (if failed then .casState true .leave else .leaving true))
  | .casState, .casState skip after =>
    some { s.setPc i t (.casBgState skip after) with state := if s.state = 0 then 1 else s.state }
  | .casBgState, .casBgState skip after => some ((s.setPc i t after.pc).startWorker skip)
  | .put, .queueing =>
    some { s.setPc i t (.waiting false) with unwritten := s.unwritten ++ [i] }
  -- a flow buffer that is full refuses when the context is done
  | .refuse, .queueing => if t.ctx.done then some (s.setPc i t .refused) else none
  | .abort, .waiting false => if t.ctx.done then some (s.setPc i t (.waiting true)) else none
  -- who is left may be in the queue, so the worker is started for them
  | .leave, .leaving zero =>
    let c := s.wrCounter + decrLoIncrHi
    let pc := if zero ∧ waitsOf c ≠ 0 then .casState false .done else .returned
    some { s.setPc i t pc with wrCounter := c }
  | .leave, .refused => some { s.setPc i t .returned with wrCounter := s.wrCounter + decrLo }
  -- the reply to the worker's own PING is not one of those received
  | .leave, .answered =>
    some { s.setPc i t .returned with
      wrCounter := s.wrCounter + if t.own then decrLo else decrLoIncrHi }
  | _, _ => none

def PipeSystem.deliver (s : PipeSystem) (worker : WorkerPc) : Option PipeSystem :=
  match s.hand with
  | none => none
  | some i =>
    match s.threads[i]? with
    | none => none
    | some t =>
      match t.pc with
      | .waiting _ => some { s.setPc i t .answered with hand := none, worker := worker }
      | _ => none

def workerStep (s : PipeSystem) (a : WorkerAct) : Option PipeSystem :=
  match a, s.worker with
  | .exit, .skipping => some { s.exit with worker := .closing }
  | .close, .closing => some { s with closed := true, worker := .cleaning }
  | .take i, .reading =>
    if i ∈ s.written ∧ s.hand = none then
      some { s with written := s.written.erase i, hand := some i }
    else none
  | .deliver, .reading => s.deliver .reading
  -- the deferred function of `_backgroundRead` gives a call in progress the error before this
  | .fail, .reading => if s.hand = none then some { s with worker := .failed } else none
  | .exit, .failed => some { s.exit with worker := .selecting }
  -- a writer that has not ended may wait for a command, so it gets a PING
  | .select, .selecting => some { s with worker := if s.closed then .cleaning else .pinging }
  | .ping, .pinging =>
    some { s with
      wrCounter := s.wrCounter + 1
      threads := s.threads ++ [{ req := .one pingCmd, ctx := {}, pc := .queueing, own := true }]
      worker := .cleaning }
  | .loadWaits, .cleaning =>
    some { s with worker := if waitsOf s.wrCounter = 0 then .awaiting else .draining }
  -- nothing is taken when the place that is next has no command
  | .drain none, .draining => some { s with worker := .freeing }
  | .drain (some i), .draining =>
    if s.closed ∧ i ∈ s.unwritten then
      some { s with
        unwritten := s.unwritten.erase i, written := s.written ++ [i], worker := .freeing }
    else none
  | .free none, .freeing => some { s with worker := .cleaning }
  | .free (some i), .freeing =>
    if i ∈ s.written ∧ s.hand = none then
      some { s with written := s.written.erase i, hand := some i, worker := .freed }
    else none
  | .deliver, .freed => s.deliver .cleaning
  -- `<-p.close`
  | .finish, .awaiting => if s.closed then some { s with state := 4, worker := .ended } else none
  | _, _ => none

def writerStep (s : PipeSystem) (a : WriterAct) : Option PipeSystem :=
  match a, s.writer with
  | .take i, .writing =>
    if i ∈ s.unwritten then
      some { s with unwritten := s.unwritten.erase i, written := s.written ++ [i] }
    else none
  | .fail, .writing => some { s with writer := .failed }
  | .exit, .failed => some { s.exit with writer := .closing }
  | .close, .closing => some { s with closed := true, writer := .gone }
  | _, _ => none

def pipeStep (s : PipeSystem) : PipeAct → Option PipeSystem
  | .call req ctx =>
    let c := s.wrCounter + 1
    some { s with
      wrCounter := c, threads := s.threads ++ [{ req := req, ctx := ctx, pc := .entered (waitsOf c) }] }
  | .thread i a =>
    match s.threads[i]? with
    | none => none
    | some t => threadStep s i t a
  | .worker a => workerStep s a
  | .writer a => writerStep s a
  | .timer => some s.exit

end Rueidis
