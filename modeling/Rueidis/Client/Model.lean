import Rueidis.Commands
import Rueidis.Library.SuffixCalls

/-!
# Batches through the clients

`DoMulti` of the single, the sentinel and the dedicated single client: attempts at sending the batch,
the recovery from an expired connection, the decision to try again, and the return of the commands to
their pool.
-/

namespace Rueidis

/-- A connection: its answer to the `n`-th batch that is sent to it during an attempt.  Every
command gets a result. -/
structure Conn where
  doMulti : (attempt n : Nat) → List Completed → List RedisResult
  length_doMulti : ∀ attempt n ml, (doMulti attempt n ml).length = ml.length

/-! ## Retry decisions -/

/-- What is read while a reply is handled: whether the client is closed, whether the wire of a
dedicated client is broken, whether the context is done, the delay that `RetryDelayFn` returns for
the reply, and the time until the deadline of the context. -/
structure Reading where
  stop : Bool := false
  wireBroken : Bool := false
  ctxDone : Bool := false
  delay : Int := 0
  untilDeadline : Option Int := none

def waitOrSkipRetry (now : Reading) : Bool :=
  if now.delay = 0 then true
  else if 0 < now.delay then
    match now.untilDeadline with
    | none => true
    | some left => decide (now.delay < left)
  else false

def mayPass : Option Err → Bool
  | none | some .nil => false
  | some (.redis m) => isLoading m
  | some _ => true

def isRetryable (now : Reading) (err : Option Err) : Bool :=
  !(now.wireBroken || now.ctxDone) && mayPass err

def isRetryableUnlessStopped (now : Reading) (err : Option Err) : Bool :=
  !(err == some .doCacheAborted || now.stop || now.ctxDone) && mayPass err

def allRetryable (multi : List Completed) : Bool := multi.all (·.isRetryable)

def chooseSlot (multi : List Completed) : UInt16 :=
  match multi.filter (·.slot != initSlot) with
  | [] => initSlot
  | cmd :: rest => if rest.all (·.slot == cmd.slot) then cmd.slot else noSlot

def fillErrs (n : Nat) (err : Err) : List RedisResult := List.replicate n (newErrorResult (some err))

/-! ## Recovery from an expired connection -/

def RedisResult.isExpired (r : RedisResult) : Bool := r.nonRedisError == some .connExpired

/-- The scan of the results from `i` on: where the commands to send again start.  A `txIdx` of zero
stands for no transaction. -/
def expiredFrom (multi : List Completed) : (i txIdx : Nat) → List RedisResult → Option Nat
  | _, _, [] => none
  | i, txIdx, resp :: rest =>
    if resp.isExpired then some (if 0 < txIdx then txIdx else i)
    else expiredFrom multi (i + 1)
      (if isMulti (multi.getD i {}) then i
        else if isExec (multi.getD i {}) then 0 else txIdx) rest

/-- One turn of the recovery: the results it found, the position from which the commands were sent
again, and the answer. -/
structure Resend where
  before : List RedisResult
  start : Nat
  answer : List RedisResult

structure Recovered where
  resps : List RedisResult
  resends : List Resend := []
  done : Bool := true

/-- `recover`, for at most `fuel` turns: `scan` looks for an expired result, and `done` says that
the last results have none. -/
def recover (scan : List RedisResult → Option Nat)
    (call : Nat → List Completed → List RedisResult) (multi : List Completed) :
    (fuel n : Nat) → List RedisResult → Recovered
  | 0, _, resps => { resps := resps, done := false }
  | fuel + 1, n, resps =>
    match scan resps with
    | none => { resps := resps }
    | some start =>
      -- the results are as many as the commands, so there is a command to send again
      let rs := call n (multi.drop start)
      let later := recover scan call multi fuel (n + 1) (SuffixCalls.overlay resps rs)
      { later with resends := ⟨resps, start, rs⟩ :: later.resends }

/-! ## Attempts -/

/-- One attempt: the answer to the batch, the recovery, the results, and the positions of the
commands that go back to the pool before the next attempt or the return. -/
structure Attempt where
  answer : List RedisResult
  resends : List Resend := []
  resps : List RedisResult
  puts : List Nat := []

structure Outcome where
  attempts : List Attempt := []
  resps : Option (List RedisResult) := none

def Outcome.after (a : Attempt) (out : Outcome) : Outcome :=
  { out with attempts := a :: out.attempts }

def putsFrom (i : Nat) (resps : List RedisResult) : List Nat :=
  (resps.zipIdx i).filterMap fun (resp, j) => if resp.nonRedisError.isNone then some j else none

inductive CmdEvent where
  | sent (positions : List Nat)
  | put (position : Nat)
deriving DecidableEq, Repr

/-- `PutCompleted` of the commands at these positions: pinned commands are not recycled. -/
def putEvents (multi : List Completed) (puts : List Nat) : List CmdEvent :=
  (puts.filter fun i => (multi.getD i {}).cs.r == 0).map .put

def sentEvents (positions : List Nat) (a : Attempt) : List CmdEvent :=
  .sent positions :: a.resends.map fun r => .sent (positions.drop r.start)

def Outcome.events (multi : List Completed) (out : Outcome) : List CmdEvent :=
  out.attempts.flatMap fun a => sentEvents (List.range multi.length) a ++ putEvents multi a.puts

def sendRecovering (hasLftm : Bool) (scan : List RedisResult → Option Nat)
    (call : Nat → List Completed → List RedisResult) (multi : List Completed) (fuel : Nat) :
    Attempt × Bool :=
  let answer := call 0 multi
  if hasLftm then
    let r := recover scan call multi fuel 1 answer
    ({ answer := answer, resends := r.resends, resps := r.resps }, r.done)
  else ({ answer := answer, resps := answer }, true)

/-- The loop of the single and of the sentinel client, for at most `rounds` attempts: `pick` is the
connection of an attempt, and `again` decides over the reply at a position. -/
def doMultiLoop (hasLftm retry : Bool) (pick : Nat → Conn) (again : Nat → Nat → Option Err → Bool)
    (multi : List Completed) (fuel : Nat) : (rounds attempts : Nat) → Outcome
  | 0, _ => {}
  | rounds + 1, attempts =>
    match sendRecovering hasLftm (expiredFrom multi 0 0) ((pick attempts).doMulti attempts) multi
      fuel with
    | (a, false) => { attempts := [a] }
    | (a, true) =>
      if retry && allRetryable multi &&
          a.resps.zipIdx.any (fun (resp, i) => again attempts i resp.error) then
        (doMultiLoop hasLftm retry pick again multi fuel rounds (attempts + 1)).after a
      else { attempts := [{ a with puts := putsFrom 0 a.resps }], resps := some a.resps }

structure SingleClient where
  conn : Conn
  retry : Bool
  hasLftm : Bool
  now : (attempt i : Nat) → Reading

namespace SingleClient

def isRetryable (c : SingleClient) (attempt i : Nat) (err : Option Err) : Bool :=
  isRetryableUnlessStopped (c.now attempt i) err

def doMulti (c : SingleClient) (multi : List Completed) (fuel : Nat) : Outcome :=
  if multi.isEmpty then { resps := some [] }
  else doMultiLoop c.hasLftm c.retry (fun _ => c.conn)
    (fun k i err => c.isRetryable k i err && waitOrSkipRetry (c.now k i)) multi fuel fuel 1

end SingleClient

structure SentinelClient where
  mConn : Nat → Conn
  rConn : Nat → Conn
  replica : Bool
  sendToReplicas : Option (Completed → Bool)
  retry : Bool
  hasLftm : Bool
  now : (attempt i : Nat) → Reading

namespace SentinelClient

def isRetryable (c : SentinelClient) (attempt i : Nat) (err : Option Err) : Bool :=
  isRetryableUnlessStopped (c.now attempt i) err

def sendAllToReplica (c : SentinelClient) (cmds : List Completed) : Bool :=
  match c.sendToReplicas with
  | none => false
  | some toReplica => cmds.all toReplica

def pickMulti (c : SentinelClient) (sendToReplica : Bool) (attempt : Nat) : Conn :=
  if c.replica then c.rConn attempt
  else if c.sendToReplicas.isSome && sendToReplica then c.rConn attempt
  else c.mConn attempt

def doMulti (c : SentinelClient) (multi : List Completed) (fuel : Nat) : Outcome :=
  if multi.isEmpty then { resps := some [] }
  else doMultiLoop c.hasLftm c.retry (c.pickMulti (c.sendAllToReplica multi))
    (fun k i err => c.isRetryable k i err && waitOrSkipRetry (c.now k i)) multi fuel fuel 1

end SentinelClient

/-! ## Dedicated client -/

def errDedicatedClientRecycled : Err := .other "dedicated client should not be used after recycled"

/-- `mark` is what `check` reads at the start of an attempt. -/
structure DedicatedSingleClient where
  wire : Conn
  retry : Bool
  mark : Nat → Bool
  now : (attempt i : Nat) → Reading

namespace DedicatedSingleClient

def again (c : DedicatedSingleClient) (multi : List Completed) (attempt i : Nat)
    (err : Option Err) : Bool :=
  c.retry && allRetryable multi && isRetryable (c.now attempt i) err &&
    waitOrSkipRetry (c.now attempt i)

/-- The loop over the replies: commands are put back while later replies are still to be looked at.
The flag says that the batch is tried again. -/
def replyLoop (again : Nat → Option Err → Bool) : Nat → List RedisResult → List Nat × Bool
  | _, [] => ([], false)
  | i, resp :: rest =>
    if again i resp.error then ([], true)
    else
      let (puts, retried) := replyLoop again (i + 1) rest
      (if resp.nonRedisError.isNone then i :: puts else puts, retried)

def doMultiLoop (c : DedicatedSingleClient) (multi : List Completed) :
    (rounds attempts : Nat) → Outcome
  | 0, _ => {}
  | rounds + 1, attempts =>
    if c.mark attempts then { resps := some (fillErrs multi.length errDedicatedClientRecycled) }
    else
      let resp := c.wire.doMulti attempts 0 multi
      match replyLoop (c.again multi attempts) 0 resp with
      | (puts, true) =>
        (c.doMultiLoop multi rounds (attempts + 1)).after
          { answer := resp, resps := resp, puts := puts }
      | (puts, false) =>
        { attempts := [{ answer := resp, resps := resp, puts := puts }], resps := some resp }

def doMulti (c : DedicatedSingleClient) (multi : List Completed) (rounds : Nat) : Outcome :=
  if multi.isEmpty then { resps := some [] } else c.doMultiLoop multi rounds 1

end DedicatedSingleClient

end Rueidis
