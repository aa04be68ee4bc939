import Rueidis.Cluster.Rounds

/-!
# Cached batches on a cluster

`DoMultiCache` of the cluster client: its buckets, what it does with the replies of a node, and the
buckets of the next round.  Cacheable commands are always retryable and never in a transaction.
-/

namespace Rueidis

structure CacheableTTL where
  cmd : Completed
  ttl : Int
deriving DecidableEq, Repr

structure Retrycache where
  cIndexes : List Nat := []
  commands : List CacheableTTL := []
  aIndexes : List Nat := []
  cAskings : List CacheableTTL := []
deriving DecidableEq, Repr

structure Connretrycache where
  m : List (Nat × Retrycache) := []
  retryDelay : Int := -1
  redirects : Nat := 0
deriving DecidableEq, Repr

def Connretrycache.bucket (r : Connretrycache) (nc : Nat) : Retrycache := (r.m.lookup nc).getD {}

def Retrycache.append (nr : Retrycache) (mode : RedirectMode) (ii : Nat) (cm : CacheableTTL) :
    Retrycache :=
  if mode = .ask then { nr with aIndexes := nr.aIndexes ++ [ii], cAskings := nr.cAskings ++ [cm] }
  else { nr with cIndexes := nr.cIndexes ++ [ii], commands := nr.commands ++ [cm] }

def Connretrycache.add (r : Connretrycache) (nc : Nat) (mode : RedirectMode) (ii : Nat)
    (cm : CacheableTTL) (delay : Int) : Connretrycache :=
  { m := (nc, (r.bucket nc).append mode ii cm) :: r.m.filter (·.1 != nc)
    retryDelay := if mode = .retry ∧ 0 ≤ delay then max r.retryDelay delay else r.retryDelay
    redirects := if mode = .retry then r.redirects else r.redirects + 1 }

section Results

variable (rd : Round) (cIndexes : List Nat) (commands : List CacheableTTL)

/-- The loop over the replies from position `i` on: the results by index, and the retries. -/
def resultcacheLoop : Nat → List RedisResult → Connretrycache →
    Except Panic (List (Nat × RedisResult) × Connretrycache)
  | _, [], retries => .ok ([], retries)
  | i, resp :: rest, retries =>
    match cIndexes[i]?, commands[i]?, shouldRefreshRetry (rd.now i) resp.error,
      isClosingRedirect (rd.now i) resp with
    | some ii, some cm, .ok (addr, mode), .ok closing =>
      let result := if closing then newErrorResult (some .closing) else resp
      let retries :=
        if mode = .none ∨ (mode = .retry ∧ !rd.retry) then retries
        else if mode = .retry then
          retries.add rd.cc mode ii cm (rd.retryDelay rd.attempts cm.cmd resp.error)
        else retries.add (rd.redirectOrNew i addr cm.cmd.slot mode) mode ii cm (-1)
      match resultcacheLoop (i + 1) rest retries with
      | .error p => .error p
      | .ok (results, retries) => .ok ((ii, result) :: results, retries)
    | _, _, .error p, _ => .error p
    | _, _, _, .error p => .error p
    | _, _, _, _ => .error indexOutOfRange

def resultcachefn (resps : List RedisResult) (retries : Connretrycache) :
    Except Panic (List (Nat × RedisResult) × Connretrycache) :=
  resultcacheLoop rd cIndexes commands 0 resps retries

end Results

namespace ClusterClient

variable (c : ClusterClient)

/-- The loop over the commands of a bucket: those that stay, and those that go to another
connection. -/
def rebucketCacheLoop (k oldConn : Nat) : List (Nat × CacheableTTL) →
    List (Nat × CacheableTTL) × List (Nat × Nat × CacheableTTL)
  | [] => ([], [])
  | (ii, cm) :: rest =>
    let (keep, moves) := rebucketCacheLoop k oldConn rest
    match c.pick k ii cm.cmd.slot (c.toReplica cm.cmd) with
    | none => ((ii, cm) :: keep, moves)
    | some nc =>
      if nc = oldConn then ((ii, cm) :: keep, moves) else (keep, (nc, ii, cm) :: moves)

def rebucketCacheAll (k : Nat) : List (Nat × Retrycache) →
    List (Nat × Retrycache) × List (Nat × Nat × CacheableTTL)
  | [] => ([], [])
  | (oldConn, nr) :: rest =>
    let (buckets, moves) := rebucketCacheAll k rest
    if nr.commands.isEmpty then ((oldConn, nr) :: buckets, moves)
    else
      let (keep, moved) := c.rebucketCacheLoop k oldConn (nr.cIndexes.zip nr.commands)
      let kept := { nr with cIndexes := keep.map (·.1), commands := keep.map (·.2) }
      (if kept.cIndexes.isEmpty && kept.cAskings.isEmpty then buckets
        else (oldConn, kept) :: buckets, moved ++ moves)

def rebucketRetriesCache (k : Nat) (retries : Connretrycache) : Connretrycache :=
  let (buckets, moves) := c.rebucketCacheAll k retries.m
  moves.foldl (fun r (nc, ii, cm) =>
    { r with m := (nc, (r.bucket nc).append .none ii cm) :: r.m.filter (·.1 != nc) })
    { retries with m := buckets }

def nextCache (k : Nat) (retries : Connretrycache) (attempts redirects : Nat) :
    Option (Connretrycache × Nat × Nat) :=
  if retries.m.isEmpty then none
  else if 0 < retries.redirects then
    if 0 < c.maxMovedRedirections ∧ c.maxMovedRedirections < redirects + 1 then none
    else some ({ retries with redirects := 0 }, attempts, redirects + 1)
  else if 0 ≤ retries.retryDelay then
    some (c.rebucketRetriesCache k retries, attempts + 1, redirects)
  else none

end ClusterClient

end Rueidis
