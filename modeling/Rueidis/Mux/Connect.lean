import Rueidis.Message
import Rueidis.Library.Machine

/-!
# Connecting and closing a mux

`_pipe` connects when it finds the initial wire in its variable; callers that come while a connection
is made wait for it.  `Close` puts the dead wire into every variable and closes what it finds.  Each
load, store, swap and locked section is one step.
-/

namespace Rueidis

/-- What a muxwire can hold: the placeholder `m.init`, the shared `m.dead`, or a wire that `wireFn`
made, by its number. -/
inductive WireRef where
  | init
  | dead
  | live (id : Nat)
deriving DecidableEq, Repr

/-- A wire that was made: the muxwire its close hook is bound to, whether it failed with an error
other than `ErrClosing`, and whether it was closed. -/
structure MadeWire where
  hook : Option Nat := none
  failed : Bool := false
  closed : Bool := false
deriving DecidableEq, Repr

/-- `sc` is the connection that is being made, by its number. -/
structure Muxwire where
  wire : WireRef := .init
  sc : Option Nat := none
deriving DecidableEq, Repr

inductive PipePc where
  | start
  | missed
  /-- In `sc.g.Wait` for the connection of another call. -/
  | waiting (sc : Nat)
  | leading
  | connecting
  | connected (id : Nat)
  | hooked (id : Nat)
  | finishing (w : WireRef) (err : Option Err)
  | publishing (sc : Nat) (w : WireRef) (err : Option Err)
  | returned (w : WireRef) (err : Option Err)
deriving DecidableEq, Repr

structure PipeCall where
  slot : Nat
  pc : PipePc := .start
deriving DecidableEq, Repr

inductive ClosePc where
  | swapping (i : Nat)
  /-- Before the wire that was in muxwire `i` is closed. -/
  | closing (i : Nat) (id : Nat)
deriving DecidableEq, Repr

def ClosePc.afterSwap (i : Nat) (prev : WireRef) : ClosePc :=
  match prev with
  | .live id => .closing i id
  | _ => .swapping (i + 1)

/-- `scs` has the results of the connections, `none` before they are published. -/
structure Mux where
  muxwires : List Muxwire
  scs : List (Option (WireRef × Option Err)) := []
  wires : List MadeWire := []
  pipes : List PipeCall := []
  closes : List ClosePc := []
deriving DecidableEq, Repr

namespace Mux

def new (n : Nat) : Mux := { muxwires := List.replicate n {} }

def setPc (m : Mux) (t : Nat) (p : PipeCall) (pc : PipePc) : Mux :=
  { m with pipes := m.pipes.set t { p with pc := pc } }

def setMuxwire (m : Mux) (i : Nat) (mw : Muxwire) : Mux := { m with muxwires := m.muxwires.set i mw }

/-- `CompareAndSwap(w, m.init)` on muxwire `i`. -/
def reset (m : Mux) (i : Nat) (w : WireRef) : Mux :=
  match m.muxwires[i]? with
  | none => m
  | some mw => if mw.wire = w then m.setMuxwire i { mw with wire := .init } else m

end Mux

inductive MuxAct where
  | pipe (i : Nat)
  | close
  /-- The next step of a call of `_pipe`; `err` is the error of `wireFn`, if that is what is next. -/
  | pipeStep (t : Nat) (err : Option Err)
  | closeStep (t : Nat)
  | fail (id : Nat)
  | hook (id : Nat)
  /-- A command that got `w` from muxwire `i` fails, and finds it broken. -/
  | broken (i : Nat) (w : WireRef)
deriving DecidableEq, Repr

def Mux.pipeStep (m : Mux) (t : Nat) (p : PipeCall) (mw : Muxwire) (err : Option Err) : Option Mux :=
  match p.pc with
  | .start => some (m.setPc t p (if mw.wire = .init then .missed else .returned mw.wire none))
  | .missed =>
    match mw.sc with
    | some sc => some (m.setPc t p (.waiting sc))
    | none =>
      some { (m.setPc t p .leading).setMuxwire p.slot { mw with sc := some m.scs.length } with
        scs := m.scs ++ [none] }
  | .waiting sc =>
    match m.scs[sc]? with
    | some (some (w, e)) => some (m.setPc t p (.returned w e))
    | _ => none
  | .leading =>
    some (m.setPc t p (if mw.wire = .init then .connecting else .finishing mw.wire none))
  | .connecting =>
    match err with
    | none => some { m.setPc t p (.connected m.wires.length) with wires := m.wires ++ [{}] }
    -- the dead wire is not stored
    | some e => some (m.setPc t p (.finishing .dead (some e)))
  | .connected id =>
    some { m.setPc t p (.hooked id) with
      wires := m.wires.modify id fun w => { w with hook := some p.slot } }
  | .hooked id =>
    some ((m.setPc t p (.finishing (.live id) none)).setMuxwire p.slot { mw with wire := .live id })
  | .finishing w e =>
    match mw.sc with
    | none => none
    | some sc => some ((m.setPc t p (.publishing sc w e)).setMuxwire p.slot { mw with sc := none })
  | .publishing sc w e => some { m.setPc t p (.returned w e) with scs := m.scs.set sc (some (w, e)) }
  | .returned _ _ => none

def Mux.closeStep (m : Mux) (t : Nat) : ClosePc → Option Mux
  | .swapping i =>
    match m.muxwires[i]? with
    | none => none
    | some mw =>
      some { m.setMuxwire i { mw with wire := .dead } with
        closes := m.closes.set t (.afterSwap i mw.wire) }
  | .closing i id => some { m with
      wires := m.wires.modify id fun w => { w with closed := true }
      closes := m.closes.set t (.swapping (i + 1)) }

def Mux.step (m : Mux) : MuxAct → Option Mux
  | .pipe i =>
    if i < m.muxwires.length then some { m with pipes := m.pipes ++ [{ slot := i }] } else none
  | .close => some { m with closes := m.closes ++ [.swapping 0] }
  | .pipeStep t err =>
    match m.pipes[t]? with
    | none => none
    | some p =>
      match m.muxwires[p.slot]? with
      | none => none
      | some mw => m.pipeStep t p mw err
  | .closeStep t =>
    match m.closes[t]? with
    | none => none
    | some c => m.closeStep t c
  | .fail id => some { m with
      wires := m.wires.modify id fun w => { w with failed := w.failed || !w.closed } }
  | .hook id =>
    match m.wires[id]? with
    | some { hook := some i, failed := true, .. } => some (m.reset i (.live id))
    | _ => none
  | .broken i (.live id) =>
    match m.wires[id]? with
    | some { failed := true, .. } => some (m.reset i (.live id))
    | _ => none
  -- the dead wire has an error at all times, and that of the command may be its context's
  | .broken i .dead => some (m.reset i .dead)
  | .broken _ .init => none

def PipePc.isReturned : PipePc → Bool
  | returned _ _ => true
  | _ => false

def Mux.Finished (m : Mux) : Prop :=
  (∀ p ∈ m.pipes, p.pc.isReturned = true) ∧ m.closes ≠ [] ∧
    ∀ c ∈ m.closes, c = .swapping m.muxwires.length

def Mux.Final (m : Mux) : Prop :=
  (∀ mw ∈ m.muxwires, mw.wire = .dead) ∧ ∀ w ∈ m.wires, w.closed = true ∨ w.failed = true

instance (m : Mux) : Decidable m.Finished := inferInstanceAs (Decidable (_ ∧ _ ∧ _))
instance (m : Mux) : Decidable m.Final := inferInstanceAs (Decidable (_ ∧ _))

end Rueidis
