import Rueidis.Cluster.Topology
import Rueidis.Library.Buckets

/-!
# Both descriptions of a cluster are read alike

The maps of groups as `parseSlots` and `parseShards` build them, with the nodes of a group in one
slice.  Every group is filed under the address of its first node, whatever the reply is, and the two
renderings of one topology give the same groups.
-/

namespace Rueidis

open List Option

variable {groups : List NodeGroup}

section Raw

variable {F : Type} (conv : Strconv F) (splitHost : Bytes → Bytes)

variable {key : Bytes}

/-- The Go struct `group`. -/
structure RawGroup where
  nodes : List NodeInfo
  slots : List (Int64 × Int64)
deriving DecidableEq, Repr

namespace Raw

def addEntry (defaultAddr : Bytes) (groups : GoMap RawGroup) (v : RedisMessage) : GoMap RawGroup :=
  match v.values with
  | first :: last :: third :: others =>
    match slotNode splitHost defaultAddr third with
    | none => groups
    | some master =>
      let g := (groups.lookup master.addr).getD
        { nodes := (third :: others).filterMap (slotNode splitHost defaultAddr), slots := [] }
      groups.set master.addr { g with slots := g.slots ++ [(first.intlen, last.intlen)] }
  | _ => groups

def parseSlots (slots : RedisMessage) (defaultAddr : Bytes) : GoMap RawGroup :=
  slots.values.foldl (addEntry splitHost defaultAddr) []

/-- One turn of the loop over the nodes of a shard, with `m`, which is `none` for -1. -/
def addNode (tls : Bool) (defaultAddr : Bytes) (r : List NodeInfo × Option Nat) (n : RedisMessage) :
    List NodeInfo × Option Nat :=
  match shardNode splitHost tls defaultAddr n with
  | none => r
  | some (node, isMaster) => (r.1 ++ [node], if isMaster then some r.1.length else r.2)

/-- `nodes[0], nodes[m] = nodes[m], nodes[0]`. -/
def swap (nodes : List NodeInfo) (m : Nat) : List NodeInfo :=
  match nodes[0]?, nodes[m]? with
  | some a, some b => (nodes.set 0 b).set m a
  | _, _ => nodes

def addShard (tls : Bool) (defaultAddr : Bytes) (groups : GoMap RawGroup) (v : RedisMessage) :
    GoMap RawGroup :=
  match (entryOf v "nodes").values.foldl (addNode splitHost tls defaultAddr) ([], none) with
  | (_, none) => groups
  | (nodes, some m) =>
    let nodes := swap nodes m
    groups.set ((nodes.map (·.addr)).headD []) ⟨nodes, shardSlots conv (entryOf v "slots").values⟩

def parseShards (shards : RedisMessage) (defaultAddr : Bytes) (tls : Bool) : GoMap RawGroup :=
  shards.values.foldl (addShard conv splitHost tls defaultAddr) []

end Raw

/-! ## The maps hold the groups -/

def NodeGroup.raw (g : NodeGroup) : RawGroup := ⟨g.nodes, g.slots⟩

/-- The map `raw` has the groups, under the addresses of their masters. -/
def Holds (raw : GoMap RawGroup) (groups : List NodeGroup) : Prop :=
  ∀ key, raw.lookup key = (findGroup groups key).map NodeGroup.raw

theorem addr_of_findGroup {g : NodeGroup} (h : findGroup groups key = some g) :
    g.master.addr = key := by
  simpa using find?_some h

theorem findGroup_putGroup (groups : List NodeGroup) (g : NodeGroup) (key : Bytes) :
    findGroup (putGroup groups g) key =
      if key = g.master.addr then some g else findGroup groups key := by
  unfold putGroup
  split
  · rename_i hsome
    -- what replaces a group has its address, so the search ends at the same place
    have hsame : ∀ h : NodeGroup,
        (if h.master.addr = g.master.addr then g else h).master.addr = h.master.addr := by
      intro h
      split
      · rename_i hh
        exact hh.symm
      · rfl
    have hfind : findGroup (groups.map fun h => if h.master.addr = g.master.addr then g else h) key =
        (findGroup groups key).map fun h => if h.master.addr = g.master.addr then g else h := by
      unfold findGroup
      rw [find?_map]
      simp only [Function.comp_def, hsame]
    rw [hfind]
    split
    · rename_i hkey
      obtain ⟨h, hh⟩ := isSome_iff_exists.mp hsome
      rw [hkey, hh, map_some, if_pos (addr_of_findGroup hh)]
    · rename_i hkey
      cases hh : findGroup groups key with
      | none => rfl
      | some h => rw [map_some, addr_of_findGroup hh, if_neg hkey]
  · rename_i hnone
    have hnone : findGroup groups g.master.addr = none := by simpa using hnone
    unfold findGroup at hnone ⊢
    rw [find?_append]
    split
    · rename_i hkey
      rw [hkey, hnone]
      simp
    · rename_i hkey
      simp [Ne.symm hkey]

variable {raw : GoMap RawGroup}

theorem Holds.put (h : Holds raw groups) (g : NodeGroup) :
    Holds (raw.set g.master.addr g.raw) (putGroup groups g) := by
  intro key
  rw [findGroup_putGroup]
  split
  · rename_i hkey
    rw [hkey]
    exact Buckets.lookup_put_self ..
  · rename_i hkey
    exact (Buckets.lookup_put_of_ne hkey ..).trans (h key)

theorem Holds.addEntry (h : Holds raw groups) (defaultAddr : Bytes) (v : RedisMessage) :
    Holds (Raw.addEntry splitHost defaultAddr raw v)
      (parseSlotEntry splitHost defaultAddr groups v) := by
  unfold Raw.addEntry parseSlotEntry
  match v.values with
  | [] | [_] | [_, _] => exact h
  | first :: last :: third :: others =>
    dsimp only
    cases hnode : slotNode splitHost defaultAddr third with
    | none => exact h
    | some node =>
      dsimp only
      rw [h node.addr, filterMap_cons_some hnode]
      cases hg : findGroup groups node.addr with
      | none => exact h.put ⟨node, others.filterMap _, [] ++ [(first.intlen, last.intlen)]⟩
      | some g =>
        have hput := h.put { g with slots := g.slots ++ [(first.intlen, last.intlen)] }
        rw [addr_of_findGroup hg] at hput
        exact hput

theorem lastMaster_concat (nodes : List (NodeInfo × Bool)) (n : NodeInfo × Bool) :
    lastMaster (nodes ++ [n]) = if n.2 then some nodes.length else lastMaster nodes := by
  unfold lastMaster
  rw [zipIdx_append, filter_append, zipIdx_singleton, Nat.zero_add]
  cases hn : n.2 <;> simp [hn]

theorem foldl_addNode (tls : Bool) (defaultAddr : Bytes) (ns : List RedisMessage)
    (nodes : List (NodeInfo × Bool)) :
    ns.foldl (Raw.addNode splitHost tls defaultAddr) (nodes.map (·.1), lastMaster nodes) =
      ((nodes ++ ns.filterMap (shardNode splitHost tls defaultAddr)).map (·.1),
        lastMaster (nodes ++ ns.filterMap (shardNode splitHost tls defaultAddr))) := by
  induction ns generalizing nodes with
  | nil => rw [filterMap_nil, append_nil, foldl_nil]
  | cons n ns ih =>
    rw [foldl_cons, Raw.addNode]
    cases hn : shardNode splitHost tls defaultAddr n with
    | none => rw [filterMap_cons_none hn, ih]
    | some q =>
      have hnext := ih (nodes ++ [q])
      rw [lastMaster_concat, map_append, append_assoc] at hnext
      rw [filterMap_cons_some hn, length_map]
      exact hnext

theorem swap_of_swapFirst {m : Nat} {nodes rest : List NodeInfo} {first : NodeInfo}
    (h : swapFirst m nodes = some (first, rest)) : Raw.swap nodes m = first :: rest := by
  cases nodes with
  | nil => cases h
  | cons a nodes =>
    cases m with
    | zero =>
      cases h
      rfl
    | succ m =>
      obtain ⟨b, hb, heq⟩ := map_eq_some_iff.mp h
      cases heq
      unfold Raw.swap
      rw [getElem?_cons_zero, getElem?_cons_succ, hb]
      rfl

theorem swapFirst_of_lastMaster {nodes : List (NodeInfo × Bool)} {m : Nat}
    (h : lastMaster nodes = some m) : ∃ r, swapFirst m (nodes.map (·.1)) = some r := by
  obtain ⟨q, hq, rfl⟩ := map_eq_some_iff.mp h
  have hmem := (mem_filter.mp (mem_of_getLast? hq)).1
  obtain ⟨hlt, -⟩ := mem_zipIdx' hmem
  cases nodes with
  | nil => cases hlt
  | cons n nodes =>
    rw [map_cons]
    unfold swapFirst
    cases hm : q.2 with
    | zero => exact ⟨_, rfl⟩
    | succ m =>
      rw [hm, length_cons] at hlt
      dsimp only
      rw [getElem?_eq_getElem (by rw [length_map]; omega)]
      exact ⟨_, rfl⟩

theorem Holds.addShard (h : Holds raw groups) (tls : Bool) (defaultAddr : Bytes) (v : RedisMessage) :
    Holds (Raw.addShard conv splitHost tls defaultAddr raw v)
      (parseShard conv splitHost tls defaultAddr groups v) := by
  have hfold : (entryOf v "nodes").values.foldl (Raw.addNode splitHost tls defaultAddr) ([], none) =
      _ := foldl_addNode splitHost tls defaultAddr (entryOf v "nodes").values []
  unfold Raw.addShard parseShard
  rw [hfold, nil_append]
  dsimp only
  cases hm : lastMaster ((entryOf v "nodes").values.filterMap
      (shardNode splitHost tls defaultAddr)) with
  | none => exact h
  | some m =>
    obtain ⟨⟨first, rest⟩, hr⟩ := swapFirst_of_lastMaster hm
    rw [bind_some, hr]
    dsimp only
    rw [swap_of_swapFirst hr]
    exact h.put ⟨first, rest, shardSlots conv (entryOf v "slots").values⟩

theorem Holds.foldl {f : GoMap RawGroup → RedisMessage → GoMap RawGroup}
    {f' : List NodeGroup → RedisMessage → List NodeGroup}
    (hf : ∀ raw groups v, Holds raw groups → Holds (f raw v) (f' groups v)) (vs : List RedisMessage)
    (h : Holds raw groups) : Holds (vs.foldl f raw) (vs.foldl f' groups) := by
  induction vs generalizing raw groups with
  | nil => exact h
  | cons v vs ih => exact ih (hf raw groups v h)

theorem holds_parseSlots (slots : RedisMessage) (defaultAddr : Bytes) :
    Holds (Raw.parseSlots splitHost slots defaultAddr) (parseSlots splitHost slots defaultAddr) :=
  Holds.foldl (fun _ _ v h => h.addEntry splitHost defaultAddr v) _ fun _ => rfl

theorem holds_parseShards (shards : RedisMessage) (defaultAddr : Bytes) (tls : Bool) :
    Holds (Raw.parseShards conv splitHost shards defaultAddr tls)
      (parseShards conv splitHost shards defaultAddr tls) :=
  Holds.foldl (fun _ _ v h => h.addShard conv splitHost tls defaultAddr v) _ fun _ => rfl

theorem Holds.first (h : Holds raw groups) {g : RawGroup} (hg : raw.lookup key = some g) :
    ∃ first rest, g.nodes = first :: rest ∧ first.addr = key := by
  rw [h key] at hg
  obtain ⟨ng, hng, rfl⟩ := map_eq_some_iff.mp hg
  exact ⟨ng.master, ng.replicas, rfl, addr_of_findGroup hng⟩

end Raw

/-! ## Topologies and their renderings -/

structure ClusterNode where
  host : Bytes
  port : Int64
  known : host ≠ [] ∧ host ≠ lit "?"

def ClusterNode.info (n : ClusterNode) : NodeInfo :=
  { addr := joinHostPort n.host (Decimal.numeralInt n.port.toInt) }

structure Shard where
  master : ClusterNode
  replicas : List ClusterNode
  ranges : List (Int64 × Int64)
  serves : ranges ≠ []

variable {shards : List Shard}

def Shard.addr (s : Shard) : Bytes := s.master.info.addr

structure ClusterTopology where
  shards : List Shard
  distinct : (shards.map Shard.addr).Nodup

def SlotsNode (n : ClusterNode) (v : RedisMessage) : Prop :=
  ∃ endpoint port rest, v.values = endpoint :: port :: rest ∧ endpoint.string = n.host ∧
    port.intlen = n.port

def SlotsEntry (q : Shard × Int64 × Int64) (v : RedisMessage) : Prop :=
  ∃ first last master others ns, v.values = first :: last :: master :: others ∧
    first.intlen = q.2.1 ∧ last.intlen = q.2.2 ∧ SlotsNode q.1.master master ∧
    ns.Perm q.1.replicas ∧ List.Forall₂ SlotsNode ns others

/-- A reply to `CLUSTER SLOTS`: one entry for each range, in any order. -/
def SlotsReply (t : ClusterTopology) (m : RedisMessage) : Prop :=
  ∃ qs, qs.Perm (t.shards.flatMap fun s => s.ranges.map (Prod.mk s)) ∧
    List.Forall₂ SlotsEntry qs m.values

def ShardsNode (tls : Bool) (q : ClusterNode × Bool) (v : RedisMessage) : Prop :=
  (entryOf v "health").string = lit "online" ∧ (entryOf v "endpoint").string = q.1.host ∧
    ((entryOf v "role").string = lit "master" ↔ q.2 = true) ∧
    ((entryOf v "port").intlen = q.1.port ∧ (entryOf v "tls-port").intlen = 0 ∨
      tls = true ∧ 0 < q.1.port ∧ (entryOf v "tls-port").intlen = q.1.port)

def ShardsEntry {F : Type} (conv : Strconv F) (tls : Bool) (s : Shard) (v : RedisMessage) : Prop :=
  (∃ ns, ns.Perm ((s.master, true) :: s.replicas.map (·, false)) ∧
    List.Forall₂ (ShardsNode tls) ns (entryOf v "nodes").values) ∧
  ∃ rs : List (Int64 × Int64), rs.Perm s.ranges ∧
    List.Forall₂ (fun n (m : RedisMessage) => (m.asInt64 conv).1 = n)
    (rs.flatMap fun r => [r.1, r.2]) (entryOf v "slots").values

def ShardsReply {F : Type} (conv : Strconv F) (tls : Bool) (t : ClusterTopology) (m : RedisMessage) :
    Prop :=
  ∃ ss, ss.Perm t.shards ∧ List.Forall₂ (ShardsEntry conv tls) ss m.values

/-! ## What the parsers make of them -/

structure Describes (s : Shard) (g : NodeGroup) : Prop where
  master : g.master = s.master.info
  replicas : g.replicas.Perm (s.replicas.map ClusterNode.info)
  slots : g.slots.Perm s.ranges

def Parsed (shards : List Shard) (groups : List NodeGroup) : Prop :=
  ∀ key, (findGroup groups key = none ∧ ∀ s ∈ shards, s.addr ≠ key) ∨
    ∃ s ∈ shards, s.addr = key ∧ ∃ g, findGroup groups key = some g ∧ Describes s g

theorem parseEndpoint_known (splitHost : Bytes → Bytes) (fallback : Bytes) (n : ClusterNode) :
    parseEndpoint splitHost fallback n.host n.port = n.info.addr ∧ n.info.addr ≠ [] := by
  constructor
  · unfold parseEndpoint
    rw [if_neg n.known.2, if_neg n.known.1]
    rfl
  · unfold ClusterNode.info joinHostPort
    split <;> simp [n.known.1, lit]

theorem filterMap_of_forall₂ {α β γ : Type} {R : α → β → Prop} {f : β → Option γ} {k : α → γ}
    (hf : ∀ a b, R a b → f b = some (k a)) {as : List α} {bs : List β} (h : Forall₂ R as bs) :
    bs.filterMap f = as.map k := by
  induction h with
  | nil => rfl
  | cons hab _ ih => rw [filterMap_cons_some (hf _ _ hab), ih, map_cons]

def rangesAt (key : Bytes) (qs : List (Shard × Int64 × Int64)) : List (Int64 × Int64) :=
  (qs.filter (·.1.addr == key)).map (·.2)

theorem rangesAt_append (key : Bytes) (qs qs' : List (Shard × Int64 × Int64)) :
    rangesAt key (qs ++ qs') = rangesAt key qs ++ rangesAt key qs' := by
  simp [rangesAt]

theorem rangesAt_shard (key : Bytes) (s : Shard) :
    rangesAt key (s.ranges.map (Prod.mk s)) = if s.addr = key then s.ranges else [] := by
  unfold rangesAt
  by_cases h : s.addr = key <;> simp [List.filter_map, Function.comp_def, h]

variable {s : Shard}

theorem rangesAt_eq (hd : (shards.map Shard.addr).Nodup) (hs : s ∈ shards) :
    rangesAt s.addr (shards.flatMap fun s => s.ranges.map (Prod.mk s)) = s.ranges := by
  induction shards with
  | nil => cases hs
  | cons t shards ih =>
    rw [map_cons, nodup_cons] at hd
    rw [flatMap_cons, rangesAt_append, rangesAt_shard]
    rcases mem_cons.mp hs with rfl | hs
    · -- the entries of the other shards have other masters
      have hnone : rangesAt s.addr (shards.flatMap fun s => s.ranges.map (Prod.mk s)) = [] := by
        unfold rangesAt
        rw [map_eq_nil_iff, filter_eq_nil_iff]
        intro q hq hkey
        obtain ⟨u, hu, hq⟩ := mem_flatMap.mp hq
        obtain ⟨r, -, rfl⟩ := mem_map.mp hq
        exact hd.1 (mem_map.mpr ⟨u, hu, by simpa using hkey⟩)
      rw [if_pos rfl, hnone, append_nil]
    · have hne : t.addr ≠ s.addr := fun h => hd.1 (h ▸ mem_map_of_mem hs)
      rw [if_neg hne, ih hd.2 hs, nil_append]

section Parse

variable {F : Type} {conv : Strconv F} {splitHost : Bytes → Bytes} {defaultAddr : Bytes} {tls : Bool}
  {t : ClusterTopology}

variable {v : RedisMessage} {r : Int64 × Int64} {m : RedisMessage}

theorem slotNode_of_slotsNode {n : ClusterNode} (h : SlotsNode n v) :
    slotNode splitHost defaultAddr v = some n.info := by
  obtain ⟨endpoint, port, rest, hv, hhost, hport⟩ := h
  obtain ⟨haddr, hne⟩ := parseEndpoint_known splitHost defaultAddr n
  unfold slotNode
  rw [hv]
  dsimp only
  rw [hhost, hport, haddr, if_neg hne]
  rfl

theorem parseSlotEntry_eq (splitHost : Bytes → Bytes) (defaultAddr : Bytes)
    (h : SlotsEntry (s, r) v) (groups : List NodeGroup) :
    ∃ g : NodeGroup, parseSlotEntry splitHost defaultAddr groups v = putGroup groups g ∧
      g.master.addr = s.addr ∧
      ((findGroup groups s.addr = none ∧ g.master = s.master.info ∧
          g.replicas.Perm (s.replicas.map ClusterNode.info) ∧ g.slots = [r]) ∨
        ∃ old, findGroup groups s.addr = some old ∧ g = { old with slots := old.slots ++ [r] }) := by
  obtain ⟨first, last, master, others, ns, hv, hfirst, hlast, hmaster, hperm, hothers⟩ := h
  have hreplicas : others.filterMap (slotNode splitHost defaultAddr) = ns.map ClusterNode.info :=
    filterMap_of_forall₂ (fun _ _ h => slotNode_of_slotsNode h) hothers
  unfold parseSlotEntry
  rw [hv]
  dsimp only
  rw [slotNode_of_slotsNode hmaster, hreplicas, hfirst, hlast]
  dsimp only
  rw [show s.master.info.addr = s.addr from rfl]
  cases hg : findGroup groups s.addr with
  | none => exact ⟨_, rfl, rfl, .inl ⟨rfl, rfl, hperm.map _, rfl⟩⟩
  | some old =>
    have haddr := addr_of_findGroup hg
    exact ⟨_, rfl, haddr, .inr ⟨old, rfl, rfl⟩⟩

def SlotsParsed (t : ClusterTopology) (qs : List (Shard × Int64 × Int64)) (groups : List NodeGroup) :
    Prop :=
  ∀ key, (findGroup groups key = none ∧ rangesAt key qs = []) ∨
    ∃ s ∈ t.shards, s.addr = key ∧ ∃ g, findGroup groups key = some g ∧
      g.master = s.master.info ∧ g.replicas.Perm (s.replicas.map ClusterNode.info) ∧
      g.slots = rangesAt key qs

theorem SlotsParsed.entry {qs : List (Shard × Int64 × Int64)} (h : SlotsParsed t qs groups)
    (hs : s ∈ t.shards) (hv : SlotsEntry (s, r) v) (splitHost : Bytes → Bytes)
    (defaultAddr : Bytes) :
    SlotsParsed t (qs ++ [(s, r)]) (parseSlotEntry splitHost defaultAddr groups v) := by
  obtain ⟨g, heq, haddr, hg⟩ := parseSlotEntry_eq splitHost defaultAddr hv groups
  intro key
  have hlast : rangesAt key [(s, r)] = if s.addr = key then [r] else [] := by
    unfold rangesAt
    by_cases hkey : s.addr = key <;> simp [hkey]
  rw [heq, rangesAt_append, hlast, findGroup_putGroup, haddr]
  by_cases hkey : s.addr = key
  · subst hkey
    rw [if_pos rfl, if_pos rfl]
    refine .inr ?_
    rcases h s.addr with ⟨hnone, hempty⟩ | ⟨s', hs', haddr', old, hold, hmaster, hreplicas, hslots⟩
    · rcases hg with ⟨-, hmaster, hreplicas, hslots⟩ | ⟨old, hold, -⟩
      · exact ⟨s, hs, rfl, g, rfl, hmaster, hreplicas, by rw [hslots, hempty]; rfl⟩
      · cases hnone.symm.trans hold
    · rcases hg with ⟨hnone, -⟩ | ⟨old', hold', rfl⟩
      · cases hnone.symm.trans hold
      · cases hold.symm.trans hold'
        exact ⟨s', hs', haddr', _, rfl, hmaster, hreplicas, by rw [hslots]⟩
  · rw [if_neg (Ne.symm hkey), if_neg hkey, append_nil]
    exact h key

theorem parseSlots_parsed (h : SlotsReply t m) :
    Parsed t.shards (parseSlots splitHost m defaultAddr) := by
  obtain ⟨qs, hperm, hvs⟩ := h
  have hin : ∀ q ∈ qs, q.1 ∈ t.shards := by
    intro q hq
    obtain ⟨s, hs, hq⟩ := mem_flatMap.mp (hperm.mem_iff.mp hq)
    obtain ⟨r, -, rfl⟩ := mem_map.mp hq
    exact hs
  have hfold : ∀ done groups, SlotsParsed t done groups →
      SlotsParsed t (done ++ qs) (m.values.foldl (parseSlotEntry splitHost defaultAddr) groups) := by
    clear hperm
    generalize m.values = vs at hvs
    induction hvs with
    | nil => exact fun done groups hd => by rwa [append_nil]
    | @cons q v qs vs hv _ ih =>
      intro done groups hd
      rw [forall_mem_cons] at hin
      have hnext := ih hin.2 _ _ (hd.entry hin.1 hv splitHost defaultAddr)
      rwa [append_assoc] at hnext
  have hdone := hfold [] [] fun _ => .inl ⟨rfl, rfl⟩
  rw [nil_append] at hdone
  have hranges : ∀ s ∈ t.shards, (rangesAt s.addr qs).Perm s.ranges := by
    intro s hs
    have := (hperm.filter (·.1.addr == s.addr)).map (·.2)
    rwa [← rangesAt_eq t.distinct hs]
  intro key
  rcases hdone key with ⟨hnone, hempty⟩ | ⟨s, hs, rfl, g, hg, hmaster, hreplicas, hslots⟩
  · refine .inl ⟨hnone, fun s hs hkey => ?_⟩
    subst hkey
    have hperm' := hranges s hs
    rw [hempty] at hperm'
    exact s.serves hperm'.nil_eq.symm
  · exact .inr ⟨s, hs, rfl, g, hg, hmaster, hreplicas, hslots ▸ hranges s hs⟩

theorem shardNode_of_shardsNode {q : ClusterNode × Bool} (h : ShardsNode tls q v) :
    shardNode splitHost tls defaultAddr v = some (q.1.info, q.2) := by
  obtain ⟨hhealth, hhost, hrole, hport⟩ := h
  obtain ⟨haddr, hne⟩ := parseEndpoint_known splitHost defaultAddr q.1
  have hport' : (if tls ∧ 0 < (entryOf v "tls-port").intlen then (entryOf v "tls-port").intlen
      else (entryOf v "port").intlen) = q.1.port := by
    rcases hport with ⟨hport, hzero⟩ | ⟨htls, hpos, hport⟩
    · rw [if_neg (by rw [hzero]; simp), hport]
    · rw [hport, if_pos ⟨htls, hpos⟩]
  have hmaster : ((entryOf v "role").string == lit "master") = q.2 := by
    rw [Bool.eq_iff_iff, beq_iff_eq, hrole]
  unfold shardNode
  rw [if_neg (by simpa using hhealth)]
  dsimp only
  rw [hport', hhost, haddr, if_neg hne, hmaster]
  rfl

theorem shardSlots_of_forall₂ {rs : List (Int64 × Int64)} {ms : List RedisMessage}
    (h : Forall₂ (fun n (m : RedisMessage) => (m.asInt64 conv).1 = n)
      (rs.flatMap fun r => [r.1, r.2]) ms) : shardSlots conv ms = rs := by
  induction rs generalizing ms with
  | nil =>
    cases h
    rfl
  | cons r rs ih =>
    cases h with
    | cons hfirst h =>
      cases h with
      | cons hlast h => rw [shardSlots, hfirst, hlast, ih h]

theorem swapFirst_of_perm {ns : List (NodeInfo × Bool)} {a : NodeInfo} {rs : List NodeInfo}
    (h : ns.Perm ((a, true) :: rs.map (·, false))) :
    ∃ others, ((lastMaster ns).bind fun m => swapFirst m (ns.map (·.1))) = some (a, others) ∧
      others.Perm rs := by
  obtain ⟨front, back, rfl⟩ := append_of_mem (h.mem_iff.mpr mem_cons_self)
  have hrest : (front ++ back).Perm (rs.map (·, false)) :=
    (perm_middle.symm.trans h).cons_inv
  have hfalse : ∀ q ∈ front ++ back, q.2 = false := by
    intro q hq
    obtain ⟨n, -, rfl⟩ := mem_map.mp (hrest.mem_iff.mp hq)
    rfl
  have hlast : lastMaster (front ++ (a, true) :: back) = some front.length := by
    have hback : ∀ q ∈ back, q.2 = false := fun q hq => hfalse q (mem_append_right _ hq)
    clear h hrest hfalse
    induction back using reverseRecOn with
    | nil => rw [lastMaster_concat, if_pos rfl]
    | append_singleton back q ih =>
      rw [← cons_append, ← append_assoc, lastMaster_concat,
        hback q (mem_append_right _ mem_cons_self)]
      exact ih fun q hq => hback q (mem_append_left _ hq)
  have hnames : (front.map (·.1) ++ back.map (·.1)).Perm rs := by
    have hmap := hrest.map (·.1)
    rwa [List.map_append, List.map_map, show (Prod.fst ∘ fun n : NodeInfo => (n, false)) = id from rfl,
      List.map_id] at hmap
  rw [hlast, bind_some, map_append, map_cons]
  cases front with
  | nil => exact ⟨_, rfl, hnames⟩
  | cons first front =>
    refine ⟨front.map (·.1) ++ first.1 :: back.map (·.1), ?_, perm_middle.trans hnames⟩
    have hget : (front.map (·.1) ++ a :: back.map (·.1))[front.length]? = some a := by simp
    have hset : (front.map (·.1) ++ a :: back.map (·.1)).set front.length first.1 =
        front.map (·.1) ++ first.1 :: back.map (·.1) := by
      rw [set_append_right _ _ (by simp)]
      simp
    rw [← hset]
    show ((front.map (·.1) ++ a :: back.map (·.1))[front.length]?.map _) = _
    rw [hget]
    rfl

theorem parseShard_eq (splitHost : Bytes → Bytes) (defaultAddr : Bytes)
    (h : ShardsEntry conv tls s v) (groups : List NodeGroup) :
    ∃ g, parseShard conv splitHost tls defaultAddr groups v = putGroup groups g ∧ Describes s g := by
  obtain ⟨⟨ns, hperm, hnodes⟩, rs, hrs, hslots⟩ := h
  have hnodes' := filterMap_of_forall₂ (f := shardNode splitHost tls defaultAddr)
    (k := fun q => (q.1.info, q.2)) (fun _ _ h => shardNode_of_shardsNode h) hnodes
  have hperm' := hperm.map fun q => (q.1.info, q.2)
  rw [List.map_cons, List.map_map] at hperm'
  have hnames : s.replicas.map ((fun q : ClusterNode × Bool => (q.1.info, q.2)) ∘ (·, false)) =
      (s.replicas.map ClusterNode.info).map (·, false) := by
    rw [List.map_map]
    rfl
  rw [hnames] at hperm'
  obtain ⟨others, hswap, hothers⟩ := swapFirst_of_perm hperm'
  unfold parseShard
  rw [hnodes', shardSlots_of_forall₂ hslots]
  dsimp only
  rw [hswap]
  exact ⟨_, rfl, rfl, hothers, hrs⟩

theorem Parsed.shard (h : Parsed shards groups) (hv : ShardsEntry conv tls s v)
    (splitHost : Bytes → Bytes) (defaultAddr : Bytes) :
    Parsed (shards ++ [s]) (parseShard conv splitHost tls defaultAddr groups v) := by
  obtain ⟨g, heq, hg⟩ := parseShard_eq splitHost defaultAddr hv groups
  have haddr : g.master.addr = s.addr := by rw [hg.master]; rfl
  intro key
  rw [heq, findGroup_putGroup, haddr]
  by_cases hkey : s.addr = key
  · rw [if_pos hkey.symm]
    exact .inr ⟨s, by simp, hkey, g, rfl, hg⟩
  · rw [if_neg (Ne.symm hkey)]
    rcases h key with ⟨hnone, hne⟩ | ⟨u, hu, hrest⟩
    · refine .inl ⟨hnone, fun u hu => ?_⟩
      rcases mem_append.mp hu with hu | hu
      · exact hne u hu
      · rw [mem_singleton.mp hu]
        exact hkey
    · exact .inr ⟨u, mem_append_left _ hu, hrest⟩

theorem parseShards_parsed (h : ShardsReply conv tls t m) :
    Parsed t.shards (parseShards conv splitHost m defaultAddr tls) := by
  obtain ⟨ss, hperm, hvs⟩ := h
  have hfold : ∀ done groups, Parsed done groups →
      Parsed (done ++ ss) (m.values.foldl (parseShard conv splitHost tls defaultAddr) groups) := by
    clear hperm
    generalize m.values = vs at hvs
    induction hvs with
    | nil => exact fun done groups hd => by rwa [append_nil]
    | @cons s v ss vs hv _ ih =>
      intro done groups hd
      have hnext := ih _ _ (hd.shard hv splitHost defaultAddr)
      rwa [append_assoc] at hnext
  intro key
  have hdone := hfold [] [] (fun _ => .inl ⟨rfl, fun _ h => nomatch h⟩) key
  simp only [nil_append, hperm.mem_iff] at hdone
  exact hdone

end Parse

/-! ## Agreement -/

/-- For every topology, rendering, address and port mode: the maps that the two parsers build have
the same keys, and under each of them the master first, the same replicas and the same ranges up to
their order. -/
theorem parse_agree {F : Type} (conv : Strconv F) (splitHost : Bytes → Bytes) (defaultAddr : Bytes)
    (tls : Bool) :
    (∀ (t : ClusterTopology) (slots shards : RedisMessage), SlotsReply t slots →
      ShardsReply conv tls t shards → ∀ key,
      ((Raw.parseSlots splitHost slots defaultAddr).lookup key = none ∧
        (Raw.parseShards conv splitHost shards defaultAddr tls).lookup key = none ∧
        ∀ s ∈ t.shards, s.addr ≠ key) ∨
      ∃ s ∈ t.shards, s.addr = key ∧ ∃ g g' rs rs',
        (Raw.parseSlots splitHost slots defaultAddr).lookup key = some g ∧
        (Raw.parseShards conv splitHost shards defaultAddr tls).lookup key = some g' ∧
        g.nodes = s.master.info :: rs ∧ g'.nodes = s.master.info :: rs' ∧
        rs.Perm (s.replicas.map ClusterNode.info) ∧ rs'.Perm (s.replicas.map ClusterNode.info) ∧
        g.slots.Perm s.ranges ∧ g'.slots.Perm s.ranges) ∧
    ∀ (m : RedisMessage) key g,
      ((Raw.parseSlots splitHost m defaultAddr).lookup key = some g ∨
        (Raw.parseShards conv splitHost m defaultAddr tls).lookup key = some g) →
      ∃ first rest, g.nodes = first :: rest ∧ first.addr = key := by
  constructor
  · intro t slots shards hslots hshards key
    rw [holds_parseSlots splitHost slots defaultAddr key,
      holds_parseShards conv splitHost shards defaultAddr tls key]
    rcases parseSlots_parsed hslots key with ⟨hnone, hne⟩ | ⟨s, hs, haddr, g, hg, hd⟩
    · rcases parseShards_parsed hshards key with ⟨hnone', -⟩ | ⟨s, hs, haddr, -⟩
      · rw [hnone, hnone']
        exact .inl ⟨rfl, rfl, hne⟩
      · exact absurd haddr (hne s hs)
    · rcases parseShards_parsed hshards key with ⟨-, hne⟩ | ⟨s', hs', haddr', g', hg', hd'⟩
      · exact absurd haddr (hne s hs)
      · -- one shard only has the master
        obtain rfl : s' = s :=
          inj_on_of_nodup_map t.distinct hs' hs (haddr'.trans haddr.symm)
        rw [hg, hg']
        refine .inr ⟨s', hs', haddr', _, _, g.replicas, g'.replicas, rfl, rfl, ?_, ?_, hd.replicas,
          hd'.replicas, hd.slots, hd'.slots⟩
        · rw [← hd.master]
          rfl
        · rw [← hd'.master]
          rfl
  · intro m key g hg
    rcases hg with hg | hg
    · exact (holds_parseSlots splitHost m defaultAddr).first hg
    · exact (holds_parseShards conv splitHost m defaultAddr tls).first hg

def intReply (n : Int64) : RedisMessage := { typ := typeInteger, intlen := n }
def textReply (s : String) : RedisMessage := { typ := typeBlobString, bytes := some (lit s) }
def listReply (typ : UInt8) (vs : List RedisMessage) : RedisMessage := { typ := typ, array := some vs }

/-- A master with a replica, which serve two ranges. -/
def oneShard : Shard where
  master := ⟨lit "m", 1, by decide⟩
  replicas := [⟨lit "r", 2, by decide⟩]
  ranges := [(0, 9), (20, 29)]
  serves := by decide

def shardNodeReply (host role : String) (port : Int64) : RedisMessage :=
  listReply typeMap [textReply "endpoint", textReply host, textReply "port", intReply port,
    textReply "role", textReply role, textReply "health", textReply "online"]

def oneShardEntry (r : Int64 × Int64) : RedisMessage :=
  listReply typeArray [intReply r.1, intReply r.2, listReply typeArray [textReply "m", intReply 1],
    listReply typeArray [textReply "r", intReply 2]]

def oneShardSlots : RedisMessage :=
  listReply typeArray [oneShardEntry (20, 29), oneShardEntry (0, 9)]

def oneShardShards : RedisMessage :=
  listReply typeArray [listReply typeMap [
    textReply "slots", listReply typeArray [intReply 0, intReply 9, intReply 20, intReply 29],
    textReply "nodes", listReply typeArray [shardNodeReply "r" "replica" 2,
      shardNodeReply "m" "master" 1]]]

theorem parse_agree_oneShard :
    let conv : Strconv Unit := ⟨fun _ => (0, none), fun _ => (0, none), fun _ => ((), none), (), ()⟩
    ∃ g g', (Raw.parseSlots id oneShardSlots []).lookup oneShard.addr = some g ∧
      (Raw.parseShards conv id oneShardShards [] false).lookup oneShard.addr = some g' ∧
      g.slots.Perm g'.slots := by
  intro conv
  let t : ClusterTopology := ⟨[oneShard], by decide⟩
  have hslots : SlotsReply t oneShardSlots := by
    have hentry : ∀ r : Int64 × Int64, SlotsEntry (oneShard, r) (oneShardEntry r) := fun r =>
      ⟨_, _, _, _, _, rfl, rfl, rfl, ⟨_, _, _, rfl, rfl, rfl⟩, .refl _,
        .cons ⟨_, _, _, rfl, rfl, rfl⟩ .nil⟩
    exact ⟨_, .swap _ _ _, .cons (hentry (20, 29)) (.cons (hentry (0, 9)) .nil)⟩
  have hshards : ShardsReply conv false t oneShardShards := by
    refine ⟨_, .refl _, .cons ⟨⟨_, .swap _ _ _, .cons ?_ (.cons ?_ .nil)⟩, _, .refl _, ?_⟩ .nil⟩
    · exact ⟨by rfl, by rfl, by decide, .inl ⟨by rfl, by rfl⟩⟩
    · exact ⟨by rfl, by rfl, by decide, .inl ⟨by rfl, by rfl⟩⟩
    · exact .cons (by rfl) (.cons (by rfl) (.cons (by rfl) (.cons (by rfl) .nil)))
  rcases (parse_agree conv id [] false).1 t oneShardSlots oneShardShards hslots hshards oneShard.addr
    with ⟨-, -, hnone⟩ | ⟨s, -, -, g, g', rs, rs', hg, hg', -, -, -, -, hranges, hranges'⟩
  · exact absurd rfl (hnone oneShard mem_cons_self)
  · exact ⟨g, g', hg, hg', hranges.trans hranges'.symm⟩

end Rueidis
