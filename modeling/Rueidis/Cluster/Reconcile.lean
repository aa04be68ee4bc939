import Rueidis.Library.Machine
import Rueidis.Cluster.RefreshSlots

/-!
# What a refresh leaves behind

The connections and the slots of a refresh along every run of the client, and what they are when the
new maps are installed.
-/

namespace Rueidis

open List Machine

variable {groups : List NodeGroup} {conns : ConnMap}

def NodeInfo.Connected (conns : ConnMap) (n : NodeInfo) : Prop :=
  ∃ role, conns.lookup n.addr = some role ∧ n.conn = some role.conn

theorem connected_of_covers (h : CoversNodes groups conns) :
    ∀ g ∈ groups.map (NodeGroup.mapNodes (NodeInfo.connect conns)), ∀ n ∈ g.nodes,
      n.Connected conns := by
  intro g hg n hn
  obtain ⟨g₀, hg₀, rfl⟩ := mem_map.mp hg
  have hn' : n ∈ g₀.nodes.map (NodeInfo.connect conns) := hn
  obtain ⟨m, hm, rfl⟩ := mem_map.mp hn'
  obtain ⟨role, hrole⟩ := Option.isSome_iff_exists.mp (AList.lookup_isSome.mpr (h g₀ hg₀ m hm))
  exact ⟨role, hrole, congrArg (Option.map ConnRole.conn) hrole⟩

def RefreshPc.Ok (opt : RefreshOption) : RefreshPc → Prop
  | .idle => True
  | .dialed groups conns | .merged groups conns => conns.Registered ∧ CoversNodes groups conns
  | .slotted groups conns slots =>
    conns.Registered ∧ (∀ g ∈ groups, ∀ n ∈ g.nodes, n.Connected conns) ∧
      SlotsFrom opt groups slots

structure ClusterState.Inv (opt : RefreshOption) (c : ClusterState) : Prop where
  conns : c.conns.Registered
  refresh : c.refresh.Ok opt

section Install

variable {old conns : ConnMap} {r : Reconciling}

theorem connected_fix (hm : Merged old conns r) {n : NodeInfo} (h : n.Connected conns) :
    (r.replaced.fixNode n).Connected r.conns := by
  obtain ⟨role, hrole, hconn⟩ := h
  exact ⟨_, hm.lookup_fix hrole, congrArg (Option.map r.replaced.fix) hconn⟩

end Install

/-- The connections that the client had are in the new map or closed, but not both. -/
structure ClusterState.Replaces (c c' : ClusterState) : Prop where
  kept : ∀ addr cc, c.conns.lookup addr = some cc →
    (∃ addr' role, c'.conns.lookup addr' = some role ∧ role.conn = cc.conn) ∨
      cc.conn ∈ c'.removes
  live : ∀ addr role, c'.conns.lookup addr = some role → role.conn ∉ c'.removes

/-- What holds after the new maps were installed: moreover, a connection in a slot is the one of its
node's address. -/
structure ClusterState.Reconciles (c c' : ClusterState) : Prop extends c.Replaces c' where
  wslots : ∀ i conn, c'.wslots i = some conn →
    ∃ role, c'.conns.lookup conn.dst = some role ∧ role.conn = conn
  rslots : ∀ nodes, c'.rslots = some nodes → ∀ i, ∀ n ∈ nodes i,
    ∃ role, c'.conns.lookup n.addr = some role ∧ n.conn = some role.conn

namespace ClusterState

section Steps

variable {F : Type} {conv : Strconv F} {splitHost : Bytes → Bytes} {opt : RefreshOption}
  {c c' : ClusterState}

variable {call : RedirectCall}

theorem install_reconciles {slots : Slots} {addrs : List Bytes} {order : List Nat}
    (hconns : c.conns.Registered) (hok : (RefreshPc.slotted groups conns slots).Ok opt)
    (haddrs : addrs.Perm c.conns.keys) (horder : order.Perm (range groups.length)) :
    c.Replaces (c.install groups conns slots addrs order) ∧
      ((opt.shares = true → SlotsApart groups) →
        c.Reconciles (c.install groups conns slots addrs order)) := by
  obtain ⟨hreg, hconnected, hslots⟩ := hok
  have hm := merged_of_perm haddrs hconns hreg
  have hreplaces : c.Replaces (c.install groups conns slots addrs order) :=
    ⟨fun addr cc hcc => (hm.kept hcc).imp_left fun h => ⟨addr, h⟩,
      fun addr role hrole => hm.not_mem_removes hrole⟩
  refine ⟨hreplaces, fun hapart => ⟨hreplaces, ?_, ?_⟩⟩ <;>
    have hp := install_patched hm horder hslots hapart
  · intro i conn hw
    change Patching.wslots (ite _ _ _) i = some conn at hw
    cases hw₀ : slots.wslots i with
    | none => cases (hp.unset i hw₀).symm.trans hw
    | some conn₀ =>
      obtain ⟨g, hg, hi, n, hn, hconn⟩ := hslots.write i conn₀ hw₀
      obtain ⟨role, hrole, hfixed⟩ := connected_fix hm (hconnected g hg n hn)
      rw [hp.wslots i g hg hi n hn (hw₀.trans hconn.symm), hfixed] at hw
      cases hw
      exact ⟨role, (hm.registered _ role hrole).symm ▸ hrole, rfl⟩
  · intro nodes hnodes i n hn
    obtain ⟨_, -, hat⟩ := Option.map_eq_some_iff.mp hnodes
    rw [← hat] at hn
    unfold Patching.nodesAt at hn
    cases hr : slots.read i with
    | nil =>
      rw [hp.nil i hr] at hn
      exact absurd hn not_mem_nil
    | own n₀ =>
      obtain ⟨g, hg, hi, hn₀⟩ := hslots.own i n₀ hr
      rw [hp.own i g hg hi n₀ hn₀ hr] at hn
      rw [mem_singleton.mp hn]
      exact connected_fix hm (hconnected g hg n₀ hn₀)
    | group j =>
      obtain ⟨-, g, hg, hi⟩ := hslots.shared i j hr
      obtain ⟨hread, hgroup⟩ := hp.shared i j g hg hi hr
      rw [hread] at hn
      dsimp only at hn
      rw [hgroup] at hn
      have hn' : n ∈ g.nodes.map (Replaced.fixNode _) := hn
      obtain ⟨n₀, hn₀, rfl⟩ := mem_map.mp hn'
      exact connected_fix hm (hconnected g (mem_of_getElem? hg) n₀ hn₀)

theorem registered_register (h : c.conns.Registered) : (c.register call).conns.Registered :=
  (Grown.insert (by rfl)).registered h

theorem registered_redirectLocked (h : c.conns.Registered) :
    (c.redirectLocked call).conns.Registered := by
  unfold redirectLocked
  split
  · exact registered_register h
  split
  · exact registered_register h
  · exact h

theorem refresh_redirectLocked (call : RedirectCall) :
    (c.redirectLocked call).refresh = c.refresh := by
  unfold redirectLocked
  split
  · rfl
  · split <;> rfl

theorem step_inv (hinv : c.Inv opt) {act : ClusterAct}
    (hstep : c.step conv splitHost opt act = some c') : c'.Inv opt := by
  obtain ⟨hconns, hok⟩ := hinv
  unfold step at hstep
  cases act <;> dsimp only at hstep
  case init addr =>
    cases hstep
    unfold init
    split
    · exact ⟨hconns, hok⟩
    · exact ⟨(Grown.insert (by rfl)).registered hconns, hok⟩
  case redirect call =>
    cases hstep
    unfold redirect
    split
    · split <;> exact ⟨hconns, hok⟩
    · exact ⟨hconns, hok⟩
  case redirectLocked t =>
    split at hstep <;> cases hstep
    exact ⟨registered_redirectLocked hconns,
      (congrArg (RefreshPc.Ok opt) (refresh_redirectLocked _)).mpr hok⟩
  case dial reply order =>
    split at hstep <;> try cases hstep
    split at hstep <;> cases hstep
    next horder => exact ⟨hconns, dialAll_spec opt (isPerm_iff.mp horder) c.next⟩
  case merge addrs =>
    split at hstep <;> try cases hstep
    next groups conns hpc =>
    split at hstep <;> cases hstep
    rw [hpc] at hok
    have hgrown := takeOvers hconns addrs conns
    exact ⟨hconns, hgrown.registered hok.1, fun g hg n hn => hgrown.mem _ (hok.2 g hg n hn)⟩
  case assign order =>
    split at hstep <;> try cases hstep
    next groups conns hpc =>
    split at hstep <;> cases hstep
    rw [hpc] at hok
    exact ⟨hconns, hok.1, connected_of_covers hok.2, setGroups_from order slotsFrom_new⟩
  case install addrs order =>
    split at hstep <;> try cases hstep
    next groups conns slots hpc =>
    split at hstep <;> cases hstep
    next hperm =>
    rw [hpc] at hok
    have haddrs := isPerm_iff.mp (Bool.and_eq_true_iff.mp hperm).1
    exact ⟨(merged_of_perm haddrs hconns hok.1).registered, trivial⟩

theorem inv_new : Inv opt {} := ⟨registered_empty, trivial⟩

end Steps

end ClusterState

open ClusterState in
/-- Every refresh replaces the connections, whatever redirections come in between, and it reconciles
the slots with them as long as no slot with shared nodes belongs to two groups. -/
theorem refresh_reconciles {F : Type} (conv : Strconv F) (splitHost : Bytes → Bytes)
    (opt : RefreshOption) (acts : List ClusterAct) (addrs : List Bytes) (order : List Nat)
    {c c' : ClusterState} (hrun : run (step conv splitHost opt) {} acts = some c)
    (hinstall : c.step conv splitHost opt (.install addrs order) = some c') :
    c.Replaces c' ∧ ((opt.shares = true → SlotsApart c.refresh.groups) → c.Reconciles c') := by
  have hinv : c.Inv opt :=
    run_invariant _ (fun _ _ _ hinv hstep => step_inv hinv hstep) inv_new hrun
  unfold step at hinstall
  dsimp only at hinstall
  split at hinstall <;> try cases hinstall
  next groups conns slots hpc =>
  split at hinstall <;> cases hinstall
  next hperm =>
  have hok := hinv.refresh
  rw [hpc] at hok ⊢
  rw [Bool.and_eq_true] at hperm
  exact install_reconciles hinv.conns hok (isPerm_iff.mp hperm.1) (isPerm_iff.mp hperm.2)

def slotEntry (first last : Int64) (host : String) : RedisMessage :=
  arrayOf [integer first, integer last, arrayOf [simpleString host, integer 1],
    arrayOf [simpleString host, integer 2]]

def noNumbers : Strconv Unit where
  parseInt := fun _ => (0, some (.other "invalid syntax"))
  parseUint := fun _ => (0, some (.other "invalid syntax"))
  parseFloat := fun _ => ((), some (.other "invalid syntax"))
  nan := ()
  zero := ()

def refreshWhileRedirected (reply : RedisMessage) : List ClusterAct :=
  [.dial ⟨lit "x:1", reply, false⟩ [0, 1], .merge [],
    .redirect ⟨lit "x:1", ⟨9, []⟩, 0, .ask⟩, .redirectLocked 0,
    .redirect ⟨lit "y:1", ⟨9, []⟩, 0, .ask⟩, .redirectLocked 0, .assign [0, 1]]

def selectorOption : RefreshOption := { sendToReplicas := true, readNodeSelector := true }

open ClusterState in
theorem refresh_reconciles_two_groups :
    ∃ c c', run (step noNumbers id selectorOption) {}
        (refreshWhileRedirected (arrayOf [slotEntry 0 0 "x", slotEntry 1 1 "y"])) = some c ∧
      c.step noNumbers id selectorOption (.install [lit "y:1", lit "x:1"] [0, 1]) = some c' ∧
      c'.wslots 1 = some ⟨5, lit "y:1"⟩ ∧ c.Reconciles c' :=
  ⟨_, _, rfl, rfl, rfl, (refresh_reconciles noNumbers id selectorOption
    (refreshWhileRedirected (arrayOf [slotEntry 0 0 "x", slotEntry 1 1 "y"]))
    [lit "y:1", lit "x:1"] [0, 1] rfl rfl).2 (fun _ => by decide)⟩

open ClusterState in
/-- Two groups have slot 0.  The nodes of the second are patched through slot 0 of the first, so
that the second is passed over and slot 1 keeps a connection that is closed. -/
theorem refresh_leaves_closed_connection :
    ∃ c c', run (step noNumbers id selectorOption) {}
        (refreshWhileRedirected (arrayOf [slotEntry 0 0 "x", slotEntry 0 1 "y"])) = some c ∧
      c.step noNumbers id selectorOption (.install [lit "y:1", lit "x:1"] [0, 1]) = some c' ∧
      c'.wslots 1 = some ⟨2, lit "y:1"⟩ ∧ ⟨2, lit "y:1"⟩ ∈ c'.removes ∧
      c'.conns.lookup (lit "y:1") = some ⟨⟨5, lit "y:1"⟩, false⟩ ∧ ¬ c.Reconciles c' := by
  refine ⟨_, _, rfl, rfl, rfl, by decide, rfl, ?_⟩
  intro h
  obtain ⟨role, hrole, hconn⟩ := h.wslots 1 ⟨2, lit "y:1"⟩ rfl
  have hother : role = ⟨⟨5, lit "y:1"⟩, false⟩ := Option.some.inj (hrole.symm.trans rfl)
  rw [hother] at hconn
  exact absurd hconn (by decide)

end Rueidis
