import Rueidis.Cluster.Results
import Rueidis.Cluster.Topology
import Mathlib.Data.List.AList

/-!
# Refreshing the topology

`_refresh` makes connections for the nodes of a new topology, takes over those that the client has
already, builds the slot tables, and then, under the lock, reconciles them with what `redirectOrNew`
did in the meantime and installs them.  A step is what runs without another call coming in between.  A
loop over a Go map has its order given.
-/

namespace Rueidis

structure ConnRole where
  conn : NodeConn
  hidden : Bool := false
deriving DecidableEq, Repr

abbrev ConnMap := AList fun _ : Bytes => ConnRole

/-- The options that the refresh reads.  `SendToReplicas` and `ReadNodeSelector` only matter by
being set.  `fastRand` and `replicaSelector` are given the number of the call, since they may answer
differently each time. -/
structure RefreshOption where
  initAddress : List Bytes := []
  tls : Bool := false
  replicaOnly : Bool := false
  sendToReplicas : Bool := false
  readNodeSelector : Bool := false
  fastRand : (call : Nat) → Nat := fun _ => 0
  replicaSelector : (call slot : Nat) → List NodeInfo → Int := fun _ _ _ => 0

/-! ## Connections -/

structure Dialing where
  conns : ConnMap := ∅
  next : Nat

/-- `conns[addr] = connrole{conn: c.connFn(addr, c.opt)}`. -/
def Dialing.dial (hidden : Bool) (d : Dialing) (addr : Bytes) : Dialing where
  conns := d.conns.insert addr ⟨⟨d.next, addr⟩, hidden⟩
  next := d.next + 1

def Dialing.dialGroup (d : Dialing) (g : NodeGroup) : Dialing :=
  (g.nodes.map (·.addr)).foldl (Dialing.dial false) d

def Dialing.dialInit (d : Dialing) (addr : Bytes) : Dialing :=
  if addr ∈ d.conns then d else d.dial true addr

def ordered (groups : List NodeGroup) (order : List Nat) : List NodeGroup :=
  order.filterMap fun j => groups[j]?

def dialAll (opt : RefreshOption) (groups : List NodeGroup) (order : List Nat) (next : Nat) : Dialing :=
  opt.initAddress.foldl Dialing.dialInit
    ((ordered groups order).foldl Dialing.dialGroup { next := next })

def takeOver (old conns : ConnMap) (addr : Bytes) : ConnMap :=
  match old.lookup addr, conns.lookup addr with
  | some cc, some fresh => conns.insert addr { fresh with conn := cc.conn }
  | _, _ => conns

/-! ## Slots -/

/-- A slice of the read slots: a slice of its own with one node, or the slice of the nodes of a
group, shared with the group itself. -/
inductive ReadNodes where
  | nil
  | own (node : NodeInfo)
  | group (j : Nat)
deriving DecidableEq, Repr

/-- The slot tables; `calls` counts the calls of `fastRand` and of the selector. -/
structure Slots where
  wslots : Nat → Option NodeConn := fun _ => none
  rslots : Option (Nat → ReadNodes) := none
  calls : Nat := 0

namespace Slots

def setWrite (s : Slots) (i : Nat) (conn : Option NodeConn) : Slots :=
  { s with wslots := fun k => if k = i then conn else s.wslots k }

def setRead (s : Slots) (i : Nat) (nodes : ReadNodes) : Slots :=
  { s with rslots := s.rslots.map fun r k => if k = i then nodes else r k }

def called (s : Slots) : Slots := { s with calls := s.calls + 1 }

def read (s : Slots) (i : Nat) : ReadNodes := (s.rslots.getD fun _ => .nil) i

end Slots

def selected (g : NodeGroup) (rIndex : Int) : NodeInfo :=
  if 0 ≤ rIndex then (g.replicas[rIndex.toNat]?).getD g.master else g.master

def setSlot (opt : RefreshOption) (j : Nat) (g : NodeGroup) (s : Slots) (i : Nat) : Slots :=
  if opt.replicaOnly && !opt.sendToReplicas && !g.replicas.isEmpty then
    (s.setWrite i
      ((g.replicas[opt.fastRand s.calls % g.replicas.length]?).getD g.master).conn).called
  else if opt.sendToReplicas then
    let s := s.setWrite i g.master.conn
    if g.replicas.isEmpty then s.setRead i (.own g.master)
    else if opt.readNodeSelector then s.setRead i (.group j)
    else (s.setRead i (.own (selected g (opt.replicaSelector s.calls i g.replicas)))).called
  else s.setWrite i g.master.conn

def setGroup (opt : RefreshOption) (groups : List NodeGroup) (s : Slots) (j : Nat) : Slots :=
  match groups[j]? with
  | none => s
  | some g =>
    let s := if opt.sendToReplicas && s.rslots.isNone then
      { s with rslots := some fun _ => .nil } else s
    g.indices.foldl (setSlot opt j g) s

/-- `g.nodes[i].conn = conns[nodeInfo.Addr].conn`. -/
def NodeInfo.connect (conns : ConnMap) (n : NodeInfo) : NodeInfo :=
  { n with conn := (conns.lookup n.addr).map (·.conn) }

def NodeGroup.mapNodes (f : NodeInfo → NodeInfo) (g : NodeGroup) : NodeGroup :=
  { g with master := f g.master, replicas := g.replicas.map f }

/-! ## Reconciliation -/

abbrev Replaced := AList fun _ : NodeConn => NodeConn

structure Reconciling where
  conns : ConnMap
  removes : List NodeConn := []
  replaced : Replaced := ∅

def reconcile (old : ConnMap) (r : Reconciling) (addr : Bytes) : Reconciling :=
  match old.lookup addr with
  | none => r
  | some cc =>
    match r.conns.lookup addr with
    | none => { r with removes := r.removes ++ [cc.conn] }
    | some fresh =>
      if fresh.conn = cc.conn then r
      else {
        conns := r.conns.insert addr { fresh with conn := cc.conn }
        removes := r.removes ++ [fresh.conn]
        replaced := r.replaced.insert fresh.conn cc.conn }

structure Patching where
  groups : List NodeGroup
  wslots : Nat → Option NodeConn
  rslots : Option (Nat → ReadNodes)

def Patching.read (p : Patching) (i : Nat) : ReadNodes := (p.rslots.getD fun _ => .nil) i

def Replaced.fix (replaced : Replaced) (conn : NodeConn) : NodeConn :=
  (replaced.lookup conn).getD conn

def Replaced.fixNode (replaced : Replaced) (n : NodeInfo) : NodeInfo :=
  { n with conn := n.conn.map replaced.fix }

def Replaced.hits (replaced : Replaced) (g : NodeGroup) : Bool :=
  g.nodes.any fun n => n.conn.any fun conn => decide (conn ∈ replaced)

def ReadNodes.patch (f : NodeInfo → NodeInfo) : ReadNodes → ReadNodes
  | .own node => .own (f node)
  | nodes => nodes

def ReadNodes.patchShared (f : NodeInfo → NodeInfo) (groups : List NodeGroup) :
    ReadNodes → List NodeGroup
  | .group j => groups.modify j (NodeGroup.mapNodes f)
  | _ => groups

def patchSlot (replaced : Replaced) (p : Patching) (i : Nat) : Patching where
  groups := (p.read i).patchShared replaced.fixNode p.groups
  wslots := fun k => if k = i then (p.wslots k).map replaced.fix else p.wslots k
  rslots := p.rslots.map fun r k => if k = i then (r k).patch replaced.fixNode else r k

/-- The slots of a group are patched when one of its nodes has a connection that was replaced. -/
def patchGroup (replaced : Replaced) (p : Patching) (j : Nat) : Patching :=
  match p.groups[j]? with
  | none => p
  | some g => if replaced.hits g then g.indices.foldl (patchSlot replaced) p else p

def Patching.nodesAt (p : Patching) (i : Nat) : List NodeInfo :=
  match p.read i with
  | .nil => []
  | .own node => [node]
  | .group j => (p.groups[j]?.map (·.nodes)).getD []

/-! ## The client -/

inductive RefreshPc where
  | idle
  | dialed (groups : List NodeGroup) (conns : ConnMap)
  | merged (groups : List NodeGroup) (conns : ConnMap)
  | slotted (groups : List NodeGroup) (conns : ConnMap) (slots : Slots)

def RefreshPc.groups : RefreshPc → List NodeGroup
  | .idle => []
  | .dialed groups _ | .merged groups _ | .slotted groups _ _ => groups

structure RedirectCall where
  addr : Bytes
  prev : NodeConn
  slot : UInt16
  mode : RedirectMode

/-- `removes` are the connections that the last refresh closes, `closing` those that are closed by
`init` and `redirectOrNew`. -/
structure ClusterState where
  conns : ConnMap := ∅
  wslots : Nat → Option NodeConn := fun _ => none
  rslots : Option (Nat → List NodeInfo) := none
  next : Nat := 0
  refresh : RefreshPc := .idle
  redirects : List RedirectCall := []
  removes : List NodeConn := []
  closing : List NodeConn := []

inductive ClusterAct where
  /-- A connection that `init` made is ready. -/
  | init (addr : Bytes)
  /-- The first look of `redirectOrNew`, and what it does under the lock. -/
  | redirect (call : RedirectCall)
  | redirectLocked (t : Nat)
  /-- `_refresh` up to `RLock`. -/
  | dial (reply : ClusterSlots) (order : List Nat)
  /-- The section under `RLock`. -/
  | merge (addrs : List Bytes)
  | assign (order : List Nat)
  /-- The section under `Lock`. -/
  | install (addrs : List Bytes) (order : List Nat)

namespace ClusterState

def register (c : ClusterState) (call : RedirectCall) : ClusterState :=
  let p : NodeConn := ⟨c.next, call.addr⟩
  { c with
    conns := c.conns.insert call.addr ⟨p, false⟩
    next := c.next + 1
    wslots := if call.mode = .move ∧ call.slot ≠ initSlot then
        fun k => if k = call.slot.toNat then some p else c.wslots k
      else c.wslots }

def redirectLocked (c : ClusterState) (call : RedirectCall) : ClusterState :=
  match c.conns.lookup call.addr with
  | none => c.register call
  | some cc =>
    if call.prev = cc.conn then { c.register call with closing := c.closing ++ [call.prev] }
    else c

def redirect (c : ClusterState) (call : RedirectCall) : ClusterState :=
  match c.conns.lookup call.addr with
  | some cc => if call.prev ≠ cc.conn then c else { c with redirects := c.redirects ++ [call] }
  | none => { c with redirects := c.redirects ++ [call] }

def init (c : ClusterState) (addr : Bytes) : ClusterState :=
  let cc : NodeConn := ⟨c.next, addr⟩
  if addr ∈ c.conns then { c with next := c.next + 1, closing := c.closing ++ [cc] }
  else { c with next := c.next + 1, conns := c.conns.insert addr ⟨cc, false⟩ }

def install (c : ClusterState) (groups : List NodeGroup) (conns : ConnMap) (slots : Slots)
    (addrs : List Bytes) (order : List Nat) : ClusterState :=
  let r := addrs.foldl (reconcile c.conns) { conns := conns }
  let p : Patching := ⟨groups, slots.wslots, slots.rslots⟩
  let p := if r.replaced.entries.isEmpty then p else order.foldl (patchGroup r.replaced) p
  { c with
    conns := r.conns
    wslots := p.wslots
    rslots := p.rslots.map fun _ => p.nodesAt
    removes := r.removes
    refresh := .idle }

variable {F : Type} (conv : Strconv F) (splitHost : Bytes → Bytes) (opt : RefreshOption)

/-- `none` when the action cannot be taken, or a loop is given an order that is none of its map. -/
def step (c : ClusterState) : ClusterAct → Option ClusterState
  | .init addr => some (c.init addr)
  | .redirect call => some (c.redirect call)
  | .redirectLocked t =>
    match c.redirects[t]? with
    | none => none
    | some call => some { c.redirectLocked call with redirects := c.redirects.eraseIdx t }
  | .dial reply order =>
    let groups := reply.parse conv splitHost opt.tls
    match c.refresh with
    | .idle =>
      if order.isPerm (List.range groups.length) then
        let d := dialAll opt groups order c.next
        some { c with next := d.next, refresh := .dialed groups d.conns }
      else none
    | _ => none
  | .merge addrs =>
    match c.refresh with
    | .dialed groups conns =>
      if addrs.isPerm c.conns.keys then
        some { c with refresh := .merged groups (addrs.foldl (takeOver c.conns) conns) }
      else none
    | _ => none
  | .assign order =>
    match c.refresh with
    | .merged groups conns =>
      if order.isPerm (List.range groups.length) then
        let groups := groups.map (NodeGroup.mapNodes (NodeInfo.connect conns))
        some { c with
          refresh := .slotted groups conns (order.foldl (setGroup opt groups) {}) }
      else none
    | _ => none
  | .install addrs order =>
    match c.refresh with
    | .slotted groups conns slots =>
      if addrs.isPerm c.conns.keys && order.isPerm (List.range groups.length) then
        some (c.install groups conns slots addrs order)
      else none
    | _ => none

end ClusterState

end Rueidis
