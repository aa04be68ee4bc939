import Rueidis.Commands
import Rueidis.Library.Cyclic
import Rueidis.Library.Machine

/-!
# The ring queue

The calls of a pipe go through the slots of a ring: a put takes a ticket and waits for the slot of
that ticket, the writer and the reader walk over the slots in order.  A step of the system is one
atomic operation: drawing a ticket, or one section under the mutex of a slot.  Only the reader holds
a mutex from one step to another, from `NextResultCh` to `FinishResult`.
-/

namespace Rueidis

/-! ## Slots -/

/-- A slot; its channel goes by the number of the slot, a result slice by its address.  The mark is
0 for a free slot, 1 for a put one and 2 for a written one. -/
structure RingNode where
  one : Completed := {}
  multi : Option (List Completed) := none
  resps : Option Nat := none
  mark : UInt32 := 0
  locked : Bool := false
deriving DecidableEq, Repr

/-- The size of the store is `2 ^ scale`, as the mask needs it. -/
structure Ring where
  scale : Nat
  store : List RingNode
  mask : UInt32
  write : UInt32 := 0
  read1 : UInt32 := 0
  read2 : UInt32 := 0
  resc : Option Nat := none
  size : store.length = 2 ^ scale
  maskOfSize : mask = UInt32.ofNat (2 ^ scale - 1)

def defaultRingScale : Nat := 10

def newRing (factor : Int) : Ring :=
  let scale := if factor ≤ 0 then defaultRingScale else factor.toNat
  { scale := scale
    store := List.replicate (2 ^ scale) {}
    mask := UInt32.ofNat (2 ^ scale - 1)
    size := List.length_replicate
    maskOfSize := rfl }

namespace Ring

def slot (r : Ring) (counter : UInt32) : Nat := (counter &&& r.mask).toNat

def node (r : Ring) (i : Nat) : RingNode := r.store.getD i {}

def setNode (r : Ring) (i : Nat) (n : RingNode) : Ring :=
  { r with store := r.store.set i n, size := by rw [List.length_set, r.size] }

end Ring

/-! ## Operations -/

inductive RingPut where
  | one (m : Completed)
  | multi (m : List Completed) (resps : Nat)
deriving DecidableEq, Repr

def RingNode.put (n : RingNode) : RingPut → RingNode
  | .one m => { n with one := m, mark := 1 }
  | .multi m resps => { n with multi := some m, resps := some resps, mark := 1 }

structure WriteCmd where
  one : Completed
  multi : Option (List Completed)
  ch : Nat
deriving DecidableEq, Repr

structure ResultCh where
  one : Completed
  multi : Option (List Completed)
  ch : Nat
  resps : Option Nat
deriving DecidableEq, Repr

namespace Ring

def takeTicket (r : Ring) : Ring × Nat :=
  ({ r with write := r.write + 1 }, r.slot (r.write + 1))

def putAt (r : Ring) (i : Nat) (p : RingPut) : Option Ring :=
  let n := r.node i
  if n.locked ∨ n.mark ≠ 0 then none else some (r.setNode i (n.put p))

def takeWrite (r : Ring) (i : Nat) : Ring × WriteCmd :=
  let n := r.node i
  ({ r.setNode i { n with mark := 2 } with read1 := r.read1 + 1 }, ⟨n.one, n.multi, i⟩)

/-- `none` while the mutex of the slot is held; the counter steps back when the slot is not put. -/
def nextWriteCmd (r : Ring) : Option (Ring × Option WriteCmd) :=
  let i := r.slot (r.read1 + 1)
  if (r.node i).locked then none
  else if (r.node i).mark = 1 then
    let (r', cmd) := r.takeWrite i
    some (r', some cmd)
  else some (r, none)

/-- `none` while there is nothing to write. -/
def waitForWrite (r : Ring) : Option (Ring × WriteCmd) :=
  let i := r.slot (r.read1 + 1)
  if (r.node i).locked ∨ (r.node i).mark ≠ 1 then none else some (r.takeWrite i)

def nextResultCh (r : Ring) : Option (Ring × Option ResultCh) :=
  let i := r.slot (r.read2 + 1)
  let n := r.node i
  if n.locked then none
  else if n.mark = 2 then
    some ({ r.setNode i { mark := 0, locked := true } with
              read2 := r.read2 + 1, resc := some i }, some ⟨n.one, n.multi, i, n.resps⟩)
  else some ({ r.setNode i { n with locked := true } with resc := some i }, none)

def finishResult (r : Ring) : Ring :=
  match r.resc with
  | none => r
  | some i => { r.setNode i { r.node i with locked := false } with resc := none }

end Ring

/-! ## The system -/

inductive RingEvent where
  | ticket (i : Nat) (p : RingPut)
  | filled (i : Nat) (p : RingPut)
  | handed (cmd : WriteCmd)
  | result (res : ResultCh)
  | finished (i : Nat)
deriving DecidableEq, Repr

/-- The ring, the puts that wait for their slots, and what happened so far. -/
structure RingSystem where
  ring : Ring
  waiting : List (Nat × RingPut) := []
  log : List RingEvent := []

inductive RingAction where
  | ticket (p : RingPut)
  /-- The waiting put number `j` gets its slot. -/
  | fill (j : Nat)
  | nextWriteCmd
  | waitForWrite
  | nextResultCh
  | finishResult
deriving DecidableEq, Repr

def ringStep (s : RingSystem) : RingAction → Option RingSystem
  | .ticket p =>
    let (r, i) := s.ring.takeTicket
    some { ring := r, waiting := s.waiting ++ [(i, p)], log := s.log ++ [.ticket i p] }
  | .fill j => do
      let (i, p) ← s.waiting[j]?
      let r ← s.ring.putAt i p
      some { ring := r, waiting := s.waiting.eraseIdx j, log := s.log ++ [.filled i p] }
  | .nextWriteCmd => do
      let (r, cmd) ← s.ring.nextWriteCmd
      some { s with ring := r, log := s.log ++ (cmd.map .handed).toList }
  | .waitForWrite => do
      let (r, cmd) ← s.ring.waitForWrite
      some { s with ring := r, log := s.log ++ [.handed cmd] }
  | .nextResultCh => do
      let (r, res) ← s.ring.nextResultCh
      some { s with ring := r, log := s.log ++ (res.map .result).toList }
  | .finishResult =>
    some { s with ring := s.ring.finishResult,
                  log := s.log ++ (s.ring.resc.map .finished).toList }

def newRingSystem (factor : Int) : RingSystem := { ring := newRing factor }

def puts (log : List RingEvent) : List (Nat × RingPut) :=
  log.filterMap fun
    | .ticket i p => some (i, p)
    | _ => none

def handed (log : List RingEvent) : List WriteCmd :=
  log.filterMap fun
    | .handed cmd => some cmd
    | _ => none

def results (log : List RingEvent) : List ResultCh :=
  log.filterMap fun
    | .result res => some res
    | _ => none

end Rueidis
