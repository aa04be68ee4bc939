import Rueidis.Message

/-!
# The connection pool

`Acquire`, `Store`, `removeIdleConns` and `Close` as the pool's critical sections.  What happens
outside of the lock belongs to the system: the calls that are on their way, and the wires, which can
break and expire at any moment.
-/

namespace Rueidis

/-! ## Wires -/

/-- The lifetime timer of a wire; `stopped` also stands for one that has fired. -/
inductive Timer where
  | absent
  | running
  | stopped
deriving DecidableEq, Repr

structure PoolWire where
  error : Option Err := none
  timer : Timer := .absent
deriving DecidableEq, Repr, Inhabited

namespace PoolWire

def stopTimer (w : PoolWire) : Bool × PoolWire :=
  match w.timer with
  | .absent => (true, w)
  | .running => (true, { w with timer := .stopped })
  | .stopped => (false, w)

def resetTimer (w : PoolWire) : PoolWire :=
  if w.error.isSome then w
  else match w.timer with
    | .absent => w
    | _ => { w with timer := .running }

def close (w : PoolWire) : PoolWire :=
  { error := w.error.or (some .closing), timer := w.stopTimer.2.timer }

end PoolWire

/-- What `Acquire` returns: a wire that was made for the pool, by its number, the pipe that stands
for the error of a done context, or the shared dead wire of a closed pool. -/
inductive Handle where
  | made (v : Nat)
  | cancelled (err : Err)
  | dead
deriving DecidableEq, Repr

/-! ## Critical sections -/

structure Pool where
  list : List Nat := []
  size : Int := 0
  cap : Nat
  minSize : Nat := 0
  cleanup : Nat := 0
  down : Bool := false
  timerOn : Bool := false
deriving DecidableEq, Repr

def defaultPoolSize : Nat := 1024

def newPool (cap : Int) (cleanup minSize : Nat) : Pool :=
  { cap := if cap ≤ 0 then defaultPoolSize else cap.toNat, minSize := minSize, cleanup := cleanup }

inductive Acquired where
  | waits
  | makes
  | returns (h : Handle)
deriving DecidableEq, Repr

/-- `Acquire` from the label `retry` on.  `ctxErr` tells what `ctx.Err()` is when so many idle wires
are left. -/
def Pool.retry (ctxErr : Nat → Option Err) (p : Pool) :
    List Nat → Int → List PoolWire → Pool × List PoolWire × Acquired
  | [], size, wires =>
    let p := { p with list := [], size := size }
    match ctxErr 0 with
    | some err => (p, wires, .returns (.cancelled err))
    | none =>
      if p.down then (p, wires, .returns .dead)
      else if size = p.cap then (p, wires, .waits)
      else ({ p with size := size + 1 }, wires, .makes)
  | v :: list, size, wires =>
    match ctxErr (list.length + 1) with
    | some err => ({ p with list := v :: list, size := size }, wires, .returns (.cancelled err))
    | none =>
      if p.down then ({ p with list := v :: list, size := size }, wires, .returns .dead)
      else
        let (stopped, w) := (wires.getD v {}).stopTimer
        if !stopped || w.error.isSome then
          -- the wire expired or broke while it was idle
          p.retry ctxErr list (size - 1) (wires.set v w.close)
        else ({ p with list := list, size := size }, wires.set v w, .returns (.made v))

def Pool.startTimerIfNeeded (p : Pool) : Pool :=
  if p.cleanup = 0 ∨ p.timerOn ∨ p.list.length ≤ p.minSize then p else { p with timerOn := true }

def Handle.error (wires : List PoolWire) : Handle → Option Err
  | .made v => (wires.getD v {}).error
  | .cancelled err => some err
  | .dead => some .closing

def Pool.store (p : Pool) (wires : List PoolWire) (h : Handle) : Pool × List PoolWire :=
  match h with
  | .made v =>
    if !p.down && (h.error wires).isNone then
      ({ p with list := v :: p.list }.startTimerIfNeeded,
        wires.set v (wires.getD v {}).resetTimer)
    else ({ p with size := p.size - 1 }, wires.set v (wires.getD v {}).close)
  | h => (if !p.down && (h.error wires).isNone then p else { p with size := p.size - 1 }, wires)

def closeAll (wires : List PoolWire) (vs : List Nat) : List PoolWire :=
  vs.foldl (fun ws v => ws.set v (ws.getD v {}).close) wires

/-- The `minSize` wires that were stored first stay. -/
def Pool.removeIdleConns (p : Pool) (wires : List PoolWire) : Pool × List PoolWire :=
  let newLen := min p.minSize p.list.length
  let idle := p.list.take (p.list.length - newLen)
  ({ p with
      list := p.list.drop (p.list.length - newLen)
      size := p.size - idle.length
      timerOn := false }, closeAll wires idle)

def Pool.close (p : Pool) (wires : List PoolWire) : Pool × List PoolWire :=
  ({ p with down := true, timerOn := false }, closeAll wires p.list)

/-! ## The system -/

inductive PoolCall where
  | entering
  | making
  /-- `Acquire` has returned, `Store` is still to come. -/
  | holding (h : Handle)
deriving DecidableEq, Repr

def Acquired.call : Acquired → PoolCall
  | .waits => .entering
  | .makes => .making
  | .returns h => .holding h

/-- The pool with all that goes on around it.  `cancelledStored` counts how many pipes of done
contexts `Store` was given so far. -/
structure PoolSystem where
  pool : Pool
  wires : List PoolWire := []
  calls : List PoolCall := []
  cancelledStored : Nat := 0
deriving DecidableEq, Repr

inductive PoolAction where
  | enter
  /-- The `i`-th call runs from `retry` until it gives the lock away. -/
  | proceed (i : Nat) (ctxErr : Nat → Option Err)
  /-- `p.make` returns a wire; a failing make returns one with an error. -/
  | made (i : Nat) (w : PoolWire) (ctxErr : Nat → Option Err)
  | store (i : Nat)
  | breaks (v : Nat) (err : Err)
  | fires (v : Nat)
  | removeIdleConns
  | close

namespace PoolSystem

def leave (s : PoolSystem) (i : Nat) (out : Pool × List PoolWire × Acquired) : PoolSystem :=
  let (p, wires, acquired) := out
  { s with pool := p, wires := wires, calls := s.calls.set i acquired.call }

def proceed (s : PoolSystem) (i : Nat) (ctxErr : Nat → Option Err) : PoolSystem :=
  s.leave i (s.pool.retry ctxErr s.pool.list s.pool.size s.wires)

/-- The end of `p.make`: a wire that has expired by then is given up, and the call tries again. -/
def finishMake (s : PoolSystem) (i : Nat) (w : PoolWire) (ctxErr : Nat → Option Err) : PoolSystem :=
  let (stopped, w) := w.stopTimer
  if stopped then
    { s with
      wires := s.wires ++ [w]
      calls := s.calls.set i (.holding (.made s.wires.length)) }
  else
    proceed { s with
      pool := { s.pool with size := s.pool.size - 1 }
      wires := s.wires ++ [w.close] } i ctxErr

def putBack (s : PoolSystem) (i : Nat) (h : Handle) : PoolSystem :=
  let (p, wires) := s.pool.store s.wires h
  { s with
    pool := p
    wires := wires
    calls := s.calls.eraseIdx i
    cancelledStored := match h with
      | .cancelled _ => s.cancelledStored + 1
      | _ => s.cancelledStored }

def step (s : PoolSystem) : PoolAction → Option PoolSystem
  | .enter => some { s with calls := s.calls ++ [.entering] }
  | .proceed i ctxErr =>
    match s.calls[i]? with
    | some .entering => some (s.proceed i ctxErr)
    | _ => none
  | .made i w ctxErr =>
    match s.calls[i]? with
    | some .making => some (s.finishMake i w ctxErr)
    | _ => none
  | .store i =>
    match s.calls[i]? with
    | some (.holding h) => some (s.putBack i h)
    | _ => none
  | .breaks v err =>
    some { s with wires := s.wires.modify v fun w => { w with error := w.error.or (some err) } }
  | .fires v => some { s with wires := s.wires.modify v fun w => w.stopTimer.2 }
  | .removeIdleConns =>
    let (p, wires) := s.pool.removeIdleConns s.wires
    some { s with pool := p, wires := wires }
  | .close =>
    let (p, wires) := s.pool.close s.wires
    some { s with pool := p, wires := wires }

end PoolSystem

end Rueidis
