import Rueidis.Library.Decimal
import Rueidis.Message.Convert

/-!
# The topology of a cluster

The groups that `CLUSTER SLOTS` and `CLUSTER SHARDS` describe: a master, its replicas, and the slots
they serve.  A Go map of groups is a list without two groups of the same master.
-/

namespace Rueidis

open Faults

structure NodeConn where
  id : Nat
  dst : Bytes
deriving DecidableEq, Repr

structure NodeInfo where
  addr : Bytes
  conn : Option NodeConn := none
deriving DecidableEq, Repr

/-- The nodes of a group are never empty, and the group is filed under the address of the first. -/
structure NodeGroup where
  master : NodeInfo
  replicas : List NodeInfo := []
  slots : List (Int64 × Int64) := []
deriving DecidableEq, Repr

namespace NodeGroup

def nodes (g : NodeGroup) : List NodeInfo := g.master :: g.replicas

/-- `for i := slot[0]; i <= slot[1] && i >= 0 && i < 16384; i++`. -/
def slotRange (slot : Int64 × Int64) : List Nat :=
  if slot.1 < 0 then []
  else List.range' slot.1.toNatClampNeg
    (min (slot.2.toInt + 1).toNat 16384 - slot.1.toNatClampNeg)

def indices (g : NodeGroup) : List Nat := g.slots.flatMap slotRange

end NodeGroup

def findGroup (groups : List NodeGroup) (master : Bytes) : Option NodeGroup :=
  groups.find? fun g => g.master.addr == master

def putGroup (groups : List NodeGroup) (g : NodeGroup) : List NodeGroup :=
  if (findGroup groups g.master.addr).isSome then
    groups.map fun h => if h.master.addr = g.master.addr then g else h
  else groups ++ [g]

/-- `splitHost` is the host that Go's `net.SplitHostPort` finds in an address. -/
def parseEndpoint (splitHost : Bytes → Bytes) (fallback endpoint : Bytes) (port : Int64) : Bytes :=
  if endpoint = lit "?" then []
  else joinHostPort (if endpoint = [] then splitHost fallback else endpoint)
    (Decimal.numeralInt port.toInt)

section Parse

variable {F : Type} (conv : Strconv F) (splitHost : Bytes → Bytes)

/-! ## Slots -/

def slotNode (defaultAddr : Bytes) (v : RedisMessage) : Option NodeInfo :=
  match v.values with
  | endpoint :: port :: _ =>
    let dst := parseEndpoint splitHost defaultAddr endpoint.string port.intlen
    if dst = [] then none else some { addr := dst }
  | _ => none

def parseSlotEntry (defaultAddr : Bytes) (groups : List NodeGroup) (v : RedisMessage) :
    List NodeGroup :=
  match v.values with
  | first :: last :: master :: others =>
    match slotNode splitHost defaultAddr master with
    | none => groups
    | some node =>
      let g := (findGroup groups node.addr).getD
        { master := node, replicas := others.filterMap (slotNode splitHost defaultAddr) }
      putGroup groups { g with slots := g.slots ++ [(first.intlen, last.intlen)] }
  | _ => groups

def parseSlots (slots : RedisMessage) (defaultAddr : Bytes) : List NodeGroup :=
  slots.values.foldl (parseSlotEntry splitHost defaultAddr) []

/-! ## Shards -/

/-- The entry of a map that `AsMap` gives; its error is ignored, and a missing key reads as the zero
message. -/
def entryOf (v : RedisMessage) (key : String) : RedisMessage :=
  match v.asMap with
  | .ok dict => (dict.lookup (lit key)).getD {}
  | .error _ => {}

/-- A node of a shard with a word on whether it is the master; one that is not online, or has no
address, is left out. -/
def shardNode (tls : Bool) (defaultAddr : Bytes) (n : RedisMessage) : Option (NodeInfo × Bool) :=
  if (entryOf n "health").string ≠ lit "online" then none
  else
    let tlsPort := (entryOf n "tls-port").intlen
    let port := if tls ∧ 0 < tlsPort then tlsPort else (entryOf n "port").intlen
    let dst := parseEndpoint splitHost defaultAddr (entryOf n "endpoint").string port
    if dst = [] then none
    else some ({ addr := dst }, (entryOf n "role").string == lit "master")

def shardSlots : List RedisMessage → List (Int64 × Int64)
  | first :: last :: rest => ((first.asInt64 conv).1, (last.asInt64 conv).1) :: shardSlots rest
  | _ => []

/-- `nodes[0], nodes[m] = nodes[m], nodes[0]`: the node at `m` and the others. -/
def swapFirst (m : Nat) : List NodeInfo → Option (NodeInfo × List NodeInfo)
  | [] => none
  | first :: rest =>
    match m with
    | 0 => some (first, rest)
    | m + 1 => rest[m]?.map fun node => (node, rest.set m first)

def lastMaster (nodes : List (NodeInfo × Bool)) : Option Nat :=
  ((nodes.zipIdx.filter fun n => n.1.2).getLast?).map (·.2)

def parseShard (tls : Bool) (defaultAddr : Bytes) (groups : List NodeGroup) (v : RedisMessage) :
    List NodeGroup :=
  let nodes := (entryOf v "nodes").values.filterMap (shardNode splitHost tls defaultAddr)
  match (lastMaster nodes).bind fun m => swapFirst m (nodes.map (·.1)) with
  | none => groups
  | some (master, replicas) => putGroup groups {
      master := master
      replicas := replicas
      slots := shardSlots conv (entryOf v "slots").values }

def parseShards (shards : RedisMessage) (defaultAddr : Bytes) (tls : Bool) : List NodeGroup :=
  shards.values.foldl (parseShard conv splitHost tls defaultAddr) []

end Parse

structure ClusterSlots where
  addr : Bytes
  reply : RedisMessage
  useShards : Bool

def ClusterSlots.parse {F : Type} (conv : Strconv F) (splitHost : Bytes → Bytes) (s : ClusterSlots)
    (tls : Bool) : List NodeGroup :=
  if s.useShards then parseShards conv splitHost s.reply s.addr tls
  else parseSlots splitHost s.reply s.addr

end Rueidis
