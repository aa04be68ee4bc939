import Rueidis.Cluster.Results
import Rueidis.Client.Model

/-!
# Rounds of a batch on a cluster

`DoMulti` of the cluster client sends the buckets of the retries to their nodes, round after round,
until nothing is left to be sent again.  The goroutines of a round are run one after another.
-/

namespace Rueidis

/-- The client, with what it meets in a round at a connection: answers to plain batches and to
askings, the nodes it is redirected to, delays, and what it reads at a reply. -/
structure ClusterClient where
  retry : Bool
  hasLftm : Bool
  maxMovedRedirections : Int
  conns : (asking : Bool) → (cc : Nat) → Conn
  redirectOrNew : (asking : Bool) → (round cc i : Nat) → Bytes → UInt16 → RedirectMode → Nat
  retryDelay : (asking : Bool) → (round cc attempts : Nat) → Completed → Option Err → Int
  now : (asking : Bool) → (round cc i : Nat) → Moment
  /-- `_pick` for the command at a position of the batch. -/
  pick : (round i : Nat) → UInt16 → (toReplica : Bool) → Option Nat
  sendToReplicas : Option (Completed → Bool)

namespace ClusterClient

variable (c : ClusterClient)

def toReplica (cmd : Completed) : Bool :=
  match c.sendToReplicas with
  | none => false
  | some fn => fn cmd

def round (asking : Bool) (k cc attempts : Nat) (hasInit : Bool) : Round where
  retry := c.retry
  cc := cc
  attempts := attempts
  hasInit := hasInit
  redirectOrNew := c.redirectOrNew asking k cc
  retryDelay := c.retryDelay asking k cc
  now := c.now asking k cc

/-! ## Askings -/

/-- The batch with its ASKINGs: `none` is an inserted ASKING, `some j` the command at `j`. -/
def askingFrame : (inTx : Bool) → (j : Nat) → List Completed → List (Option Nat)
  | _, _, [] => []
  | true, j, cmd :: rest => some j :: askingFrame (!isExec cmd) (j + 1) rest
  | false, j, cmd :: rest => none :: some j :: askingFrame (isMulti cmd) (j + 1) rest

def framed (multi : List Completed) (frame : List (Option Nat)) : List Completed :=
  frame.map fun
    | none => askingCmd
    | some j => multi.getD j {}

def askingFrom (frame : List (Option Nat)) : (i askingIdx : Nat) → List RedisResult → Option Nat
  | _, _, [] => none
  | i, askingIdx, resp :: rest =>
    let askingIdx := if frame.getD i none = none then i else askingIdx
    if resp.isExpired then some askingIdx else askingFrom frame (i + 1) askingIdx rest

def unframed (frame : List (Option Nat)) (resps : List RedisResult) : List RedisResult :=
  (frame.zip resps).filterMap fun (mark, resp) => mark.map fun _ => resp

/-- `askingMulti`: the attempt, its results without those of the ASKINGs, and whether it is done. -/
def askingMulti (k cc : Nat) (multi : List Completed) (fuel : Nat) :
    Attempt × List RedisResult × Bool :=
  let frame := askingFrame false 0 multi
  match sendRecovering c.hasLftm (askingFrom frame 0 0) ((c.conns true cc).doMulti k)
    (framed multi frame) fuel with
  | (a, done) => (a, unframed frame a.resps, done)

/-! ## One node -/

/-- What a goroutine of a round leaves behind: what it sent, its attempt with the plain commands,
the results it set, and the retries. -/
structure Retried where
  events : List CmdEvent := []
  plain : List Attempt := []
  results : List (Nat × RedisResult) := []
  retries : Connretry
  done : Bool := true

def sendCommands (k cc : Nat) (re : Retry) (fuel : Nat) : Attempt × Bool :=
  sendRecovering c.hasLftm (expiredFrom re.commands 0 0) ((c.conns false cc).doMulti k) re.commands
    fuel

def doCommands (k attempts : Nat) (hasInit : Bool) (cc : Nat) (re : Retry) (retries : Connretry)
    (fuel : Nat) : Except Panic Retried :=
  if re.commands.isEmpty then .ok { retries := retries }
  else
    match c.sendCommands k cc re fuel with
    | (a, false) => .ok {
        events := sentEvents re.cIndexes a
        plain := [a]
        retries := retries
        done := false }
    | (a, true) =>
      match doresultfn (c.round false k cc attempts hasInit) re.commands a.resps re.cIndexes
        retries with
      | .error p => .error p
      | .ok out => .ok {
          events := sentEvents re.cIndexes a
          plain := [a]
          results := re.cIndexes.zip out.results
          retries := out.retries }

/-- The positions of the batch in the order of the frame; the ASKINGs are not from the batch. -/
def askingEvents (aIndexes : List Nat) (frame : List (Option Nat)) (a : Attempt) : List CmdEvent :=
  .sent aIndexes :: a.resends.map fun r =>
    .sent ((frame.drop r.start).filterMap fun mark => mark.map (aIndexes.getD · 0))

def doAskings (k attempts : Nat) (hasInit : Bool) (cc : Nat) (re : Retry) (retries : Connretry)
    (fuel : Nat) : Except Panic Retried :=
  if re.cAskings.isEmpty then .ok { retries := retries }
  else
    let events := askingEvents re.aIndexes (askingFrame false 0 re.cAskings)
    match c.askingMulti k cc re.cAskings fuel with
    | (a, _, false) => .ok { events := events a, retries := retries, done := false }
    | (a, resps, true) =>
      match doresultfn (c.round true k cc attempts hasInit) re.cAskings resps re.aIndexes
        retries with
      | .error p => .error p
      | .ok out => .ok {
          events := events a
          results := re.aIndexes.zip out.results
          retries := out.retries }

def Retried.andThen (r : Retried) (next : Connretry → Except Panic Retried) :
    Except Panic Retried :=
  if r.done then
    match next r.retries with
    | .error p => .error p
    | .ok later => .ok {
        events := r.events ++ later.events
        plain := r.plain ++ later.plain
        results := r.results ++ later.results
        retries := later.retries
        done := later.done }
  else .ok r

def doretry (k attempts : Nat) (hasInit : Bool) (cc : Nat) (re : Retry) (retries : Connretry)
    (fuel : Nat) : Except Panic Retried :=
  match c.doCommands k attempts hasInit cc re retries fuel with
  | .error p => .error p
  | .ok r => r.andThen fun retries => c.doAskings k attempts hasInit cc re retries fuel

def doRound (k attempts : Nat) (hasInit : Bool) (fuel : Nat) :
    List (Nat × Retry) → Connretry → Except Panic Retried
  | [], retries => .ok { retries := retries }
  | (cc, re) :: rest, retries =>
    match c.doretry k attempts hasInit cc re retries fuel with
    | .error p => .error p
    | .ok r => r.andThen (doRound k attempts hasInit fuel rest)

/-! ## Other nodes for what is tried again -/

/-- The commands of a bucket, with their positions, that stay and that go to another connection, and
the connection that was picked last. -/
structure Rebucket where
  keep : List (Nat × Completed) := []
  moves : List (Nat × Nat × Completed) := []
  prev : Option Nat := none

/-- A command, or a whole transaction, goes to `nc`. -/
def Rebucket.place (b : Rebucket) (oldConn nc : Nat) (cmds : List (Nat × Completed)) : Rebucket :=
  { keep := if nc = oldConn then b.keep ++ cmds else b.keep
    moves := if nc = oldConn then b.moves else b.moves ++ cmds.map (nc, ·)
    prev := some nc }

def spanSlot (multi : Completed) (span : List (Nat × Completed)) : UInt16 :=
  ((span.map (·.2.slot)).find? (· != initSlot)).getD multi.slot

/-- The loop over the commands of a bucket.  A transaction ends with its EXEC, or with the
bucket. -/
def rebucketLoop (k oldConn : Nat) : (fuel : Nat) → List (Nat × Completed) → Rebucket → Rebucket
  | 0, _, b => b
  | _, [], b => b
  | fuel + 1, (ii, cmd) :: rest, b =>
    if isMulti cmd then
      let n := (rest.findIdx fun p => isExec p.2) + 1
      let span := (ii, cmd) :: rest.take n
      let nc := (c.pick k ii (spanSlot cmd span) false).getD oldConn
      rebucketLoop k oldConn fuel (rest.drop n) (b.place oldConn nc span)
    else
      let last := if cmd.slot = initSlot then b.prev else none
      match last <|> c.pick k ii cmd.slot (c.toReplica cmd) with
      | none => rebucketLoop k oldConn fuel rest { b with keep := b.keep ++ [(ii, cmd)] }
      | some nc => rebucketLoop k oldConn fuel rest (b.place oldConn nc [(ii, cmd)])

def rebucketAll (k : Nat) : List (Nat × Retry) → Option Nat →
    List (Nat × Retry) × List (Nat × Nat × Completed)
  | [], _ => ([], [])
  | (oldConn, nr) :: rest, prev =>
    if nr.commands.isEmpty then
      let (buckets, moves) := rebucketAll k rest prev
      ((oldConn, nr) :: buckets, moves)
    else
      let b := c.rebucketLoop k oldConn nr.commands.length (nr.cIndexes.zip nr.commands)
        { prev := prev }
      let (buckets, moves) := rebucketAll k rest b.prev
      let kept := { nr with cIndexes := b.keep.map (·.1), commands := b.keep.map (·.2) }
      (if kept.cIndexes.isEmpty && kept.cAskings.isEmpty then buckets
        else (oldConn, kept) :: buckets, b.moves ++ moves)

def rebucketRetries (k : Nat) (retries : Connretry) : Connretry :=
  let (buckets, moves) := c.rebucketAll k retries.m none
  moves.foldl (fun r (nc, ii, cmd) =>
    { r with m := (nc, (r.bucket nc).append .none [ii] [cmd]) :: r.m.filter (·.1 != nc) })
    { retries with m := buckets }

/-! ## The batch -/

structure Batch where
  events : List CmdEvent := []
  results : Option (List RedisResult) := none

def setResults (results : List RedisResult) (set : List (Nat × RedisResult)) : List RedisResult :=
  set.foldl (fun results (ii, resp) => results.set ii resp) results

inductive Next where
  | again (retries : Connretry) (attempts redirects : Nat)
  | giveUp
  | finish

def next (k : Nat) (retries : Connretry) (attempts redirects : Nat) : Next :=
  if retries.m.isEmpty then .finish
  else if 0 < retries.redirects then
    if 0 < c.maxMovedRedirections ∧ c.maxMovedRedirections < redirects + 1 then .giveUp
    else .again { retries with redirects := 0 } attempts (redirects + 1)
  else if 0 ≤ retries.retryDelay then .again (c.rebucketRetries k retries) (attempts + 1) redirects
  else .finish

def doMultiLoop (multi : List Completed) (hasInit : Bool) (fuel : Nat) : (rounds k : Nat) →
    (attempts redirects : Nat) → Connretry → List RedisResult → Except Panic Batch
  | 0, _, _, _, _, _ => .ok {}
  | rounds + 1, k, attempts, redirects, retries, results =>
    match c.doRound k attempts hasInit fuel retries.m { retries with m := [], retryDelay := -1 } with
    | .error p => .error p
    | .ok r =>
      let results := setResults results r.results
      if !r.done then .ok { events := r.events }
      else match c.next k r.retries attempts redirects with
        | .giveUp => .ok { events := r.events, results := some results }
        | .finish => .ok {
            events := r.events ++ putEvents multi (putsFrom 0 results)
            results := some results }
        | .again retries attempts redirects =>
          match doMultiLoop multi hasInit fuel rounds (k + 1) attempts redirects retries
            results with
          | .error p => .error p
          | .ok later => .ok { later with events := r.events ++ later.events }

/-- `picked` is what `pickMulti` returns for the batch. -/
def doMulti (picked : Except Err (Connretry × Bool)) (multi : List Completed) (fuel : Nat) :
    Except Panic Batch :=
  if multi.isEmpty then .ok { results := some [] }
  else match picked with
    | .error err => .ok { results := some (fillErrs multi.length err) }
    | .ok (retries, hasInit) =>
      c.doMultiLoop multi hasInit fuel fuel 0 1 0 retries (List.replicate multi.length {})

end ClusterClient

/-! ## Dedicated client -/

def panicMsgCxSlot : Panic := ⟨"cross slot command in Dedicated is prohibited"⟩

/-- `slot` is the slot of the client before the call, `mark` is read by every `acquire`, and
`pickErr` is the error of picking a node, which is done until there is a wire. -/
structure DedicatedClusterClient where
  wire : Conn
  retry : Bool
  slot : UInt16
  hasWire : Bool
  mark : Nat → Bool
  pickErr : Nat → Option Err
  now : (attempt i : Nat) → Reading
  client : (attempt i : Nat) → Moment

namespace DedicatedClusterClient

variable (c : DedicatedClusterClient)

/-- The slot is kept from the first acquired batch on, so it is checked before the first attempt
only; `none` is success. -/
def acquire (slot : UInt16) (attempts : Nat) : Except Panic (Option Err) :=
  if c.mark attempts then .ok (some errDedicatedClientRecycled)
  else if c.slot != noSlot && c.slot != slot && slot != initSlot then .error panicMsgCxSlot
  else if c.hasWire || decide (1 < attempts) then .ok none
  else .ok (c.pickErr attempts)

/-- The loop over the replies: whether the batch is tried again.  The first reply that is redirected
or could be retried ends it. -/
def replyLoop (retryable : Bool) (attempts : Nat) : Nat → List RedisResult → Except Panic Bool
  | _, [] => .ok false
  | i, r :: rest =>
    match shouldRefreshRetry (c.client attempts i) r.error with
    | .error p => .error p
    | .ok (_, mode) =>
      if mode = .retry && retryable && !(c.now attempts i).wireBroken &&
          waitOrSkipRetry (c.now attempts i) then .ok true
      else if mode ≠ .none then .ok false
      else replyLoop retryable attempts (i + 1) rest

def doMultiLoop (multi : List Completed) (slot : UInt16) :
    (rounds attempts : Nat) → Except Panic Outcome
  | 0, _ => .ok {}
  | rounds + 1, attempts =>
    match c.acquire slot attempts with
    | .error p => .error p
    | .ok (some err) => .ok { resps := some (fillErrs multi.length err) }
    | .ok none =>
      let resp := c.wire.doMulti attempts 0 multi
      match c.replyLoop (c.retry && allRetryable multi) attempts 0 resp with
      | .error p => .error p
      | .ok true =>
        match doMultiLoop multi slot rounds (attempts + 1) with
        | .error p => .error p
        | .ok out => .ok (out.after { answer := resp, resps := resp })
      | .ok false => .ok {
          attempts := [{ answer := resp, resps := resp, puts := putsFrom 0 resp }]
          resps := some resp }

def doMulti (multi : List Completed) (rounds : Nat) : Except Panic Outcome :=
  if multi.isEmpty then .ok { resps := some [] }
  else if chooseSlot multi = noSlot then .error panicMsgCxSlot
  else c.doMultiLoop multi (chooseSlot multi) rounds 1

end DedicatedClusterClient

end Rueidis
