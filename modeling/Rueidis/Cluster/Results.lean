import Rueidis.Commands
import Rueidis.Library.Boundaries

/-!
# The results of a batch on a cluster node

`doresultfn` goes through the replies of one node and puts into the retries what is to be sent again:
single commands, and MULTI..EXEC blocks as a whole.
-/

namespace Rueidis

open Boundaries

inductive RedirectMode where
  | none
  | move
  | ask
  | retry
deriving DecidableEq, Repr

/-- What is read while a reply is handled: whether the client is closing, at the two places where
this is asked, and whether the context is done. -/
structure Moment where
  stop : Bool := false
  stopAfter : Bool := false
  ctxDone : Bool := false

def shouldRefreshRetry (now : Moment) (err : Option Err) : Except Panic (Bytes × RedirectMode) :=
  match err with
  | none | some .nil | some .doCacheAborted => .ok ([], .none)
  | some (.redis m) =>
    if now.stop then .ok ([], .none)
    else match isMoved m with
      | .error p => .error p
      | .ok (some addr) => .ok (addr, .move)
      | .ok none =>
        match isAsk m with
        | .error p => .error p
        | .ok (some addr) => .ok (addr, .ask)
        | .ok none =>
          .ok ([], if isClusterDown m || isTryAgain m || isLoading m then .retry else .none)
  | some _ => .ok ([], if now.stop || now.ctxDone then .none else .retry)

def isClosingRedirect (now : Moment) (resp : RedisResult) : Except Panic Bool :=
  if !now.stopAfter then .ok false
  else match resp.error with
    | some (.redis m) =>
      match isMoved m, isAsk m with
      | .error p, _ => .error p
      | _, .error p => .error p
      | .ok moved, .ok ask => .ok (moved.isSome || ask.isSome)
    | _ => .ok false

/-! ## Retries -/

structure Retry where
  cIndexes : List Nat := []
  commands : List Completed := []
  aIndexes : List Nat := []
  cAskings : List Completed := []
deriving DecidableEq, Repr

def Retry.indexes (re : Retry) (asking : Bool) : List Nat :=
  if asking then re.aIndexes else re.cIndexes

def Retry.cmds (re : Retry) (asking : Bool) : List Completed :=
  if asking then re.cAskings else re.commands

structure Connretry where
  m : List (Nat × Retry) := []
  retryDelay : Int := -1
  redirects : Nat := 0
deriving DecidableEq, Repr

/-- One critical section of `doresultfn` on the retries: a block, or a single command with the delay
of its retry.  Connections are numbers. -/
inductive Added where
  | block (nc : Nat) (mode : RedirectMode) (mi ei : Nat)
  | single (nc : Nat) (mode : RedirectMode) (i : Nat) (delay : Int)
deriving DecidableEq, Repr

namespace Added

def nc : Added → Nat
  | .block nc _ _ _ => nc
  | .single nc _ _ _ => nc

def mode : Added → RedirectMode
  | .block _ mode _ _ => mode
  | .single _ mode _ _ => mode

def positions : Added → List Nat
  | .block _ _ mi ei => List.range' mi (ei + 1 - mi)
  | .single _ _ i _ => [i]

end Added

def Connretry.bucket (r : Connretry) (nc : Nat) : Retry := (r.m.lookup nc).getD {}

def Retry.append (nr : Retry) (mode : RedirectMode) (indexes : List Nat) (cms : List Completed) :
    Retry :=
  if mode = .ask then
    { nr with aIndexes := nr.aIndexes ++ indexes, cAskings := nr.cAskings ++ cms }
  else { nr with cIndexes := nr.cIndexes ++ indexes, commands := nr.commands ++ cms }

def Connretry.add (cIndexes : List Nat) (commands : List Completed) (r : Connretry) (a : Added) :
    Connretry :=
  let nr := (r.bucket a.nc).append a.mode (a.positions.map (cIndexes.getD · 0))
    (a.positions.map (commands.getD · {}))
  { m := (a.nc, nr) :: r.m.filter (·.1 != a.nc)
    retryDelay := match a with
      | .single _ .retry _ delay => if 0 ≤ delay then max r.retryDelay delay else r.retryDelay
      | _ => r.retryDelay
    redirects := match a with
      | .single _ .retry _ _ => r.redirects
      | _ => r.redirects + 1 }

/-! ## The loop -/

def boundary (cmd : Completed) : Bool := isMulti cmd || isExec cmd

structure Scan where
  mi : Int := -1
  ei : Int := -1
deriving DecidableEq, Repr

/-- The client and the round: the connection, the number of the attempt, and what the client does
when it is asked for a node or for the delay of a retry. -/
structure Round where
  retry : Bool
  cc : Nat
  attempts : Nat
  hasInit : Bool
  redirectOrNew : Nat → Bytes → UInt16 → RedirectMode → Nat
  retryDelay : Nat → Completed → Option Err → Int
  now : Nat → Moment

section DoResult

variable (rd : Round) (commands : List Completed) (resps : List RedisResult)

def search (i : Nat) : Scan :=
  ⟨scanDown boundary commands i, scanUp boundary commands i⟩

def found (sc : Scan) : Bool :=
  decide (0 ≤ sc.mi) && decide (sc.ei < commands.length) &&
    hit isMulti commands sc.mi.toNat && hit isExec commands sc.ei.toNat &&
    (resps.getD sc.mi.toNat {}).val.string == lit "OK"

def processed (sc : Scan) (i : Nat) : Bool :=
  decide (sc.mi < i) && decide (i < sc.ei) && decide (0 ≤ sc.mi) &&
    hit isMulti commands sc.mi.toNat

/-- What is added for the command at `i`, with the ends `sc` of a search that was made just now or
for an earlier command. -/
def place (i : Nat) (cm : Completed) (resp : RedisResult) (addr : Bytes) (mode : RedirectMode)
    (searched : Bool) (sc : Scan) : Option Added :=
  let nc := if mode = .retry then rd.cc else rd.redirectOrNew i addr cm.slot mode
  let delay := if mode = .retry then rd.retryDelay rd.attempts cm resp.error else -1
  if searched && found commands resps sc then some (.block nc mode sc.mi.toNat sc.ei.toNat)
  else if rd.hasInit && processed commands sc i then none
  else some (.single nc mode i delay)

def redirected (i : Nat) (cm : Completed) (resp : RedisResult) (addr : Bytes) (mode : RedirectMode)
    (sc : Scan) : Scan × Option Added :=
  if rd.hasInit && decide (sc.ei < i) then
    (search commands i, place rd commands resps i cm resp addr mode true (search commands i))
  else (sc, place rd commands resps i cm resp addr mode false sc)

def resends (cm : Completed) (mode : RedirectMode) : Bool :=
  match mode with
  | .none => false
  | .retry => rd.retry && cm.isRetryable
  | _ => true

def resultLoop : Nat → List RedisResult → Scan → Except Panic (List RedisResult × List Added)
  | _, [], _ => .ok ([], [])
  | i, resp :: rest, sc =>
    match commands[i]?, shouldRefreshRetry (rd.now i) resp.error,
      isClosingRedirect (rd.now i) resp with
    | none, _, _ => .error indexOutOfRange
    | _, .error p, _ => .error p
    | _, _, .error p => .error p
    | some cm, .ok (addr, mode), .ok closing =>
      let result := if closing then newErrorResult (some .closing) else resp
      let (sc, added) := if resends rd cm mode
        then redirected rd commands resps i cm resp addr mode sc else (sc, none)
      match resultLoop (i + 1) rest sc with
      | .error p => .error p
      | .ok (results, adds) => .ok (result :: results, added.toList ++ adds)

/-- What `doresultfn` leaves behind: the results by position, what was added, and the retries. -/
structure DoResult where
  clean : Bool
  results : List RedisResult
  added : List Added
  retries : Connretry
deriving DecidableEq, Repr

def doresultfn (cIndexes : List Nat) (retries : Connretry) : Except Panic DoResult :=
  match resultLoop rd commands resps 0 resps {} with
  | .error p => .error p
  | .ok (results, added) => .ok {
      clean := resps.all (·.nonRedisError.isNone)
      results := results
      added := added
      retries := added.foldl (Connretry.add cIndexes commands) retries }

end DoResult

end Rueidis
