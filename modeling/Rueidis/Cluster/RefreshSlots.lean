import Rueidis.Cluster.RefreshConns

/-!
# The slots of a refresh

What stands in a slot comes from a group that has the slot.  The patch goes by groups and looks at
the nodes of a group to see whether there is something to do; it misses nothing as long as the nodes
were not patched before, through a slot that another group shares with this one.
-/

namespace Rueidis

open List NodeGroup

/-! ## Building the slot tables -/

def RefreshOption.shares (opt : RefreshOption) : Bool := opt.sendToReplicas && opt.readNodeSelector

structure SlotsFrom (opt : RefreshOption) (groups : List NodeGroup) (s : Slots) : Prop where
  write : ∀ i conn, s.wslots i = some conn →
    ∃ g ∈ groups, i ∈ g.indices ∧ ∃ n ∈ g.nodes, n.conn = some conn
  own : ∀ i n, s.read i = .own n → ∃ g ∈ groups, i ∈ g.indices ∧ n ∈ g.nodes
  shared : ∀ i j, s.read i = .group j →
    opt.shares = true ∧ ∃ g, groups[j]? = some g ∧ i ∈ g.indices

variable {n : NodeInfo} {done : List Nat} {g : NodeGroup}

section Assign

variable {opt : RefreshOption} {groups : List NodeGroup} {s : Slots} {g : NodeGroup} {i j : Nat}

theorem slotsFrom_new : SlotsFrom opt groups {} := ⟨nofun, nofun, nofun⟩

theorem SlotsFrom.setWrite (h : SlotsFrom opt groups s) (hg : g ∈ groups) (hi : i ∈ g.indices)
    (hn : n ∈ g.nodes) : SlotsFrom opt groups (s.setWrite i n.conn) := by
  refine ⟨fun k conn hk => ?_, h.own, h.shared⟩
  change (if k = i then n.conn else s.wslots k) = _ at hk
  split at hk
  next hki => exact ⟨g, hg, hki ▸ hi, n, hn, hk⟩
  · exact h.write k conn hk

theorem read_setRead (s : Slots) (i k : Nat) (nodes : ReadNodes) :
    (s.setRead i nodes).read k = s.read k ∨ (k = i ∧ (s.setRead i nodes).read k = nodes) := by
  unfold Slots.setRead Slots.read
  cases s.rslots with
  | none => exact .inl rfl
  | some r =>
    by_cases hk : k = i
    · exact .inr ⟨hk, if_pos hk⟩
    · exact .inl (if_neg hk)

variable (h : SlotsFrom opt groups s)

include h

theorem SlotsFrom.setRead {nodes : ReadNodes}
    (hown : ∀ n, nodes = .own n → ∃ g ∈ groups, i ∈ g.indices ∧ n ∈ g.nodes)
    (hshared : ∀ j, nodes = .group j →
      opt.shares = true ∧ ∃ g, groups[j]? = some g ∧ i ∈ g.indices) :
    SlotsFrom opt groups (s.setRead i nodes) := by
  refine ⟨h.write, fun k m hk => ?_, fun k j hk => ?_⟩
  · rcases read_setRead s i k nodes with heq | ⟨rfl, heq⟩
    · exact h.own k m (heq ▸ hk)
    · exact hown m (heq.symm.trans hk)
  · rcases read_setRead s i k nodes with heq | ⟨rfl, heq⟩
    · exact h.shared k j (heq ▸ hk)
    · exact hshared j (heq.symm.trans hk)

theorem SlotsFrom.setOwn (hg : g ∈ groups) (hi : i ∈ g.indices) (hn : n ∈ g.nodes) :
    SlotsFrom opt groups (s.setRead i (.own n)) := by
  refine h.setRead (fun m hm => ?_) nofun
  cases hm
  exact ⟨g, hg, hi, hn⟩

theorem SlotsFrom.setShared (hshares : opt.shares = true) (hg : groups[j]? = some g)
    (hi : i ∈ g.indices) : SlotsFrom opt groups (s.setRead i (.group j)) := by
  refine h.setRead nofun fun k hk => ?_
  cases hk
  exact ⟨hshares, g, hg, hi⟩

theorem SlotsFrom.called : SlotsFrom opt groups s.called :=
  ⟨h.write, h.own, h.shared⟩

omit h

theorem selected_mem (g : NodeGroup) (rIndex : Int) : selected g rIndex ∈ g.nodes := by
  unfold selected
  split
  · cases h : g.replicas[rIndex.toNat]? with
    | none => exact mem_cons_self
    | some n => exact mem_cons_of_mem _ (mem_of_getElem? h)
  · exact mem_cons_self

theorem setSlot_from (h : SlotsFrom opt groups s) (hg : groups[j]? = some g) (hi : i ∈ g.indices) :
    SlotsFrom opt groups (setSlot opt j g s i) := by
  have hmem : g ∈ groups := mem_of_getElem? hg
  have hmaster : g.master ∈ g.nodes := mem_cons_self
  unfold setSlot
  split
  · apply SlotsFrom.called
    apply h.setWrite hmem hi
    cases hr : g.replicas[opt.fastRand s.calls % g.replicas.length]? with
    | none => exact hmaster
    | some n => exact mem_cons_of_mem _ (mem_of_getElem? hr)
  have hwrite := h.setWrite hmem hi hmaster
  split
  next hsend =>
    split
    · exact hwrite.setOwn hmem hi hmaster
    split
    next hselector => exact hwrite.setShared (by simp [RefreshOption.shares, hsend, hselector]) hg hi
    · exact (hwrite.setOwn hmem hi (selected_mem g _)).called
  · exact hwrite

theorem setSlots_from (hg : groups[j]? = some g) (is : List Nat) (his : ∀ i ∈ is, i ∈ g.indices)
    (h : SlotsFrom opt groups s) : SlotsFrom opt groups (is.foldl (setSlot opt j g) s) := by
  induction is generalizing s with
  | nil => exact h
  | cons i is ih =>
    apply ih (fun k hk => his k (mem_cons_of_mem _ hk))
    exact setSlot_from h hg (his i mem_cons_self)

theorem SlotsFrom.makeRead (h : SlotsFrom opt groups s) :
    SlotsFrom opt groups { s with rslots := some fun _ => .nil } :=
  ⟨h.write, nofun, nofun⟩

theorem setGroups_from (order : List Nat) (h : SlotsFrom opt groups s) :
    SlotsFrom opt groups (order.foldl (setGroup opt groups) s) := by
  induction order generalizing s with
  | nil => exact h
  | cons j order ih =>
    apply ih
    unfold setGroup
    split
    · exact h
    next g hg =>
      apply setSlots_from hg _ (fun i hi => hi)
      split
      · exact h.makeRead
      · exact h

end Assign

/-! ## Patching the slots -/

structure Patched (replaced : Replaced) (p₀ p : Patching) (visited : List Nat) : Prop where
  wslots : ∀ i, p.wslots i =
    if i ∈ visited then (p₀.wslots i).map replaced.fix else p₀.wslots i
  read : ∀ i, p.read i =
    if i ∈ visited then (p₀.read i).patch replaced.fixNode else p₀.read i
  groups : ∀ j, p.groups[j]? =
    if ∃ i ∈ visited, p₀.read i = .group j then
      p₀.groups[j]?.map (mapNodes replaced.fixNode)
    else p₀.groups[j]?

section Patch

variable {replaced : Replaced} {p₀ p : Patching} {visited : List Nat}

theorem patched_nil : Patched replaced p₀ p₀ [] := by
  refine ⟨fun i => ?_, fun i => ?_, fun j => ?_⟩ <;> simp

theorem read_patchSlot (p : Patching) (i k : Nat) :
    (patchSlot replaced p i).read k =
      if k = i then (p.read k).patch replaced.fixNode else p.read k := by
  unfold patchSlot Patching.read
  cases p.rslots with
  | none =>
    change ReadNodes.nil = if k = i then ReadNodes.nil else ReadNodes.nil
    rw [ite_self]
  | some r => rfl

section Idempotent

variable (hfix : ∀ x, replaced.fix (replaced.fix x) = replaced.fix x)

include hfix

theorem fixNode_fixNode (n : NodeInfo) :
    replaced.fixNode (replaced.fixNode n) = replaced.fixNode n := by
  simp [Replaced.fixNode, Function.comp_def, hfix]

theorem patch_patch (nodes : ReadNodes) :
    (nodes.patch replaced.fixNode).patch replaced.fixNode = nodes.patch replaced.fixNode := by
  cases nodes with
  | nil | group j => rfl
  | own n => exact congrArg ReadNodes.own (fixNode_fixNode hfix n)

theorem mapNodes_mapNodes (g : NodeGroup) :
    (g.mapNodes replaced.fixNode).mapNodes replaced.fixNode = g.mapNodes replaced.fixNode := by
  simp [mapNodes, Function.comp_def, fixNode_fixNode hfix]

theorem Patched.patchSlot (h : Patched replaced p₀ p visited) (i : Nat) :
    Patched replaced p₀ (patchSlot replaced p i) (i :: visited) := by
  have hread : ∀ j, p.read i = .group j ↔ p₀.read i = .group j := by
    intro j
    rw [h.read i]
    split
    · cases p₀.read i <;> simp [ReadNodes.patch]
    · rfl
  refine ⟨?_, ?_, ?_⟩
  · intro k
    change (if k = i then (p.wslots k).map replaced.fix else p.wslots k) = _
    rw [h.wslots k]
    rcases eq_or_ne k i with rfl | hk
    · by_cases hk : k ∈ visited <;> simp [hk, Function.comp_def, hfix]
    · simp [hk]
  · intro k
    rw [read_patchSlot, h.read k]
    rcases eq_or_ne k i with rfl | hk
    · by_cases hk : k ∈ visited <;> simp [hk, patch_patch hfix]
    · simp [hk]
  · intro j
    have hex := exists_mem_cons_iff (fun k => p₀.read k = .group j) i visited
    change ((p.read i).patchShared replaced.fixNode p.groups)[j]? = _
    by_cases hshared : p₀.read i = .group j
    · -- the nodes of this group are patched, maybe not for the first time
      rw [(hread j).mpr hshared, if_pos (hex.mpr (.inl hshared))]
      change (p.groups.modify j (mapNodes replaced.fixNode))[j]? = _
      rw [getElem?_modify_eq, h.groups j, Option.map_eq_map]
      split
      · simp [Function.comp_def, mapNodes_mapNodes hfix]
      · rfl
    · have hsame : ((p.read i).patchShared replaced.fixNode p.groups)[j]? = p.groups[j]? := by
        cases hr : p.read i with
        | nil | own n => rfl
        | group k =>
          have hkj : k ≠ j := fun heq => hshared ((hread j).mp (heq ▸ hr))
          exact getElem?_modify_ne _ _ hkj
      rw [hsame, h.groups j]
      by_cases hbefore : ∃ k ∈ visited, p₀.read k = .group j
      · rw [if_pos hbefore, if_pos (hex.mpr (.inr hbefore))]
      · rw [if_neg hbefore, if_neg (fun hnow => (hex.mp hnow).elim hshared hbefore)]

theorem Patched.patchSlots (is : List Nat) (h : Patched replaced p₀ p visited) :
    Patched replaced p₀ (is.foldl (Rueidis.patchSlot replaced) p) (is.reverse ++ visited) := by
  induction is generalizing p visited with
  | nil => exact h
  | cons i is ih =>
    rw [foldl_cons, reverse_cons, append_assoc]
    exact ih (h.patchSlot hfix i)

end Idempotent

/-- The loop over the groups in `done` has visited the slots of those that it had to. -/
structure Visited (replaced : Replaced) (p₀ : Patching) (done visited : List Nat) : Prop where
  source : ∀ i ∈ visited, ∃ j ∈ done, ∃ g, p₀.groups[j]? = some g ∧ i ∈ g.indices
  complete : ∀ j ∈ done, ∀ g, p₀.groups[j]? = some g → replaced.hits g = true →
    ∀ i ∈ g.indices, i ∈ visited

variable {j : Nat}

variable (h : Visited replaced p₀ done visited)

include h

theorem Visited.step {more : List Nat}
    (hsource : ∀ i ∈ more, ∃ g, p₀.groups[j]? = some g ∧ i ∈ g.indices)
    (hcomplete : ∀ g, p₀.groups[j]? = some g → replaced.hits g = true → ∀ i ∈ g.indices, i ∈ more) :
    Visited replaced p₀ (j :: done) (more ++ visited) := by
  refine ⟨fun i hi => exists_mem_cons_iff _ _ _ |>.mpr ?_, forall_mem_cons.mpr ⟨?_, ?_⟩⟩
  · exact (mem_append.mp hi).imp (hsource i) (h.source i)
  · exact fun g hg hhit i hi => mem_append_left _ (hcomplete g hg hhit i hi)
  · exact fun k hk g hg hhit i hi => mem_append_right _ (h.complete k hk g hg hhit i hi)

theorem Visited.skip (hj : ∀ g, p₀.groups[j]? = some g → replaced.hits g = false) :
    Visited replaced p₀ (j :: done) visited :=
  h.step (forall_mem_nil _) fun g hg hhit => by cases (hj g hg).symm.trans hhit

theorem Visited.visit (hg : p₀.groups[j]? = some g) :
    Visited replaced p₀ (j :: done) (g.indices.reverse ++ visited) := by
  refine h.step (fun i hi => ⟨g, hg, mem_reverse.mp hi⟩) fun g' hg' _ i hi => ?_
  cases hg.symm.trans hg'
  exact mem_reverse.mpr hi

omit h

def Patching.Apart (p : Patching) : Prop :=
  ∀ i j, p.read i = .group j → ∀ k g, p.groups[k]? = some g → i ∈ g.indices → k = j

theorem Patched.group_eq (hapart : p₀.Apart) (h : Patched replaced p₀ p visited)
    (hv : Visited replaced p₀ done visited) (hj : j ∉ done) : p.groups[j]? = p₀.groups[j]? := by
  rw [h.groups j, if_neg]
  rintro ⟨i, hi, hshared⟩
  obtain ⟨k, hk, g, hg, hmem⟩ := hv.source i hi
  exact hj (hapart i j hshared k g hg hmem ▸ hk)

theorem patchGroups_visit (hfix : ∀ x, replaced.fix (replaced.fix x) = replaced.fix x)
    (hapart : p₀.Apart) (order : List Nat) (hnodup : (order ++ done).Nodup)
    (h : Patched replaced p₀ p visited) (hv : Visited replaced p₀ done visited) :
    ∃ all, Patched replaced p₀ (order.foldl (patchGroup replaced) p) all ∧
      Visited replaced p₀ (order.reverse ++ done) all := by
  induction order generalizing p visited done with
  | nil => exact ⟨visited, h, hv⟩
  | cons j order ih =>
    have hmiddle : (order ++ j :: done).Nodup :=
      (perm_middle.nodup_iff).mpr hnodup
    have hj : j ∉ done := by
      rw [cons_append, nodup_cons, mem_append, not_or] at hnodup
      exact hnodup.1.2
    rw [foldl_cons, reverse_cons, append_assoc]
    unfold patchGroup
    rw [h.group_eq hapart hv hj]
    cases hg : p₀.groups[j]? with
    | none => exact ih hmiddle h (hv.skip (by simp [hg]))
    | some g =>
      dsimp only
      cases hhit : replaced.hits g with
      | true =>
        rw [if_pos rfl]
        exact ih hmiddle (h.patchSlots hfix g.indices) (hv.visit hg)
      | false =>
        rw [if_neg (by simp)]
        refine ih hmiddle h (hv.skip fun g' hg' => ?_)
        cases hg.symm.trans hg'
        exact hhit

end Patch

/-! ## All groups -/

section Install

variable {old conns : ConnMap} {r : Reconciling} {groups : List NodeGroup} {slots : Slots}
  {opt : RefreshOption} {replaced : Replaced}

theorem fix_of_not_mem {x : NodeConn} (h : x ∉ replaced) : replaced.fix x = x := by
  unfold Replaced.fix
  rw [AList.lookup_eq_none.mpr h]
  rfl

theorem fixNode_of_not_hits (h : replaced.hits g = false) (hn : n ∈ g.nodes) :
    replaced.fixNode n = n := by
  have hconn := any_eq_false.mp h n hn
  have hsame : n.conn.map replaced.fix = n.conn := by
    cases hc : n.conn with
    | none => rfl
    | some x =>
      rw [hc] at hconn
      rw [Option.map_some, fix_of_not_mem (by simpa using hconn)]
  rw [Replaced.fixNode, hsame]

structure FullyPatched (replaced : Replaced) (p₀ p : Patching) : Prop where
  unset : ∀ i, p₀.wslots i = none → p.wslots i = none
  wslots : ∀ i g, g ∈ p₀.groups → i ∈ g.indices → ∀ n ∈ g.nodes, p₀.wslots i = n.conn →
    p.wslots i = (replaced.fixNode n).conn
  own : ∀ i g, g ∈ p₀.groups → i ∈ g.indices → ∀ n ∈ g.nodes, p₀.read i = .own n →
    p.read i = .own (replaced.fixNode n)
  shared : ∀ i j g, p₀.groups[j]? = some g → i ∈ g.indices → p₀.read i = .group j →
    p.read i = .group j ∧ p.groups[j]? = some (g.mapNodes replaced.fixNode)
  nil : ∀ i, p₀.read i = .nil → p.read i = .nil

theorem mapNodes_of_not_hits (h : replaced.hits g = false) : g.mapNodes replaced.fixNode = g := by
  have hmaster := fixNode_of_not_hits h (mem_cons_self : g.master ∈ g.nodes)
  have hreplicas : g.replicas.map replaced.fixNode = g.replicas := by
    rw [map_congr_left (fun n hn => fixNode_of_not_hits h (mem_cons_of_mem _ hn))]
    exact map_id _
  unfold mapNodes
  rw [hmaster, hreplicas]

theorem fullyPatched {p₀ p : Patching} {visited : List Nat} (h : Patched replaced p₀ p visited)
    (hv : Visited replaced p₀ done visited) (hdone : ∀ j g, p₀.groups[j]? = some g → j ∈ done) :
    FullyPatched replaced p₀ p := by
  -- the slots of a group are visited, or its nodes need no patch
  have hcases : ∀ g ∈ p₀.groups, (∀ i ∈ g.indices, i ∈ visited) ∨ replaced.hits g = false := by
    intro g hg
    obtain ⟨j, hj⟩ := mem_iff_getElem?.mp hg
    cases hhit : replaced.hits g with
    | true => exact .inl (hv.complete j (hdone j g hj) g hj hhit)
    | false => exact .inr rfl
  refine ⟨?_, ?_, ?_, ?_, ?_⟩
  · intro i hw
    rw [h.wslots i, hw]
    exact ite_self _
  · intro i g hg hi n hn hw
    rw [h.wslots i, hw]
    rcases hcases g hg with hvis | hhit
    · rw [if_pos (hvis i hi)]
      rfl
    · have hsame : n.conn.map replaced.fix = n.conn :=
        congrArg NodeInfo.conn (fixNode_of_not_hits hhit hn)
      change (if i ∈ visited then n.conn.map replaced.fix else n.conn) = n.conn.map replaced.fix
      rw [hsame, ite_self]
  · intro i g hg hi n hn hr
    rw [h.read i, hr]
    rcases hcases g hg with hvis | hhit
    · rw [if_pos (hvis i hi)]
      rfl
    · change (if i ∈ visited then ReadNodes.own (replaced.fixNode n) else .own n) = _
      rw [fixNode_of_not_hits hhit hn, ite_self]
  · intro i j g hg hi hr
    constructor
    · rw [h.read i, hr]
      exact ite_self _
    · rw [h.groups j, hg]
      rcases hcases g (mem_of_getElem? hg) with hvis | hhit
      · rw [if_pos ⟨i, hvis i hi, hr⟩]
        rfl
      · rw [Option.map_some, mapNodes_of_not_hits hhit, ite_self]
  · intro i hr
    rw [h.read i, hr]
    exact ite_self _

theorem hits_of_isEmpty (h : replaced.entries.isEmpty = true) (g : NodeGroup) :
    replaced.hits g = false := by
  unfold Replaced.hits
  rw [any_eq_false]
  intro n hn
  cases n.conn with
  | none => simp
  | some x =>
    have hx : x ∉ replaced := by
      rw [AList.mem_keys]
      change x ∉ replaced.entries.keys
      rw [isEmpty_iff.mp h]
      exact not_mem_nil
    simp [hx]

def SlotsApart (groups : List NodeGroup) : Prop :=
  groups.Pairwise fun g h => ∀ i ∈ g.indices, i ∉ h.indices

instance (groups : List NodeGroup) : Decidable (SlotsApart groups) :=
  inferInstanceAs (Decidable (List.Pairwise _ _))

theorem apart_of_slots (hslots : SlotsFrom opt groups slots)
    (hapart : opt.shares = true → SlotsApart groups) :
    Patching.Apart ⟨groups, slots.wslots, slots.rslots⟩ := by
  intro i j hshared k g' hg' hi'
  obtain ⟨hshares, g, hg, hi⟩ := hslots.shared i j hshared
  have hpair := List.pairwise_iff_getElem.mp (hapart hshares)
  obtain ⟨hj, rfl⟩ := List.getElem?_eq_some_iff.mp hg
  obtain ⟨hk, rfl⟩ := List.getElem?_eq_some_iff.mp hg'
  rcases Nat.lt_trichotomy k j with hlt | heq | hlt
  · exact absurd hi (hpair k j hk hj hlt i hi')
  · exact heq
  · exact absurd hi' (hpair j k hj hk hlt i hi)

theorem install_patched {order : List Nat} (hm : Merged old conns r)
    (horder : order.Perm (range groups.length)) (hslots : SlotsFrom opt groups slots)
    (hapart : opt.shares = true → SlotsApart groups) :
    FullyPatched r.replaced ⟨groups, slots.wslots, slots.rslots⟩
      (if r.replaced.entries.isEmpty then ⟨groups, slots.wslots, slots.rslots⟩
        else order.foldl (patchGroup r.replaced) ⟨groups, slots.wslots, slots.rslots⟩) := by
  split
  next hempty =>
    have hvisited : Visited r.replaced ⟨groups, slots.wslots, slots.rslots⟩
        (range groups.length) [] :=
      ⟨nofun, fun j _ g _ hhit => by cases (hits_of_isEmpty hempty g).symm.trans hhit⟩
    apply fullyPatched patched_nil hvisited
    intro j g hg
    exact List.mem_range.mpr (List.getElem?_eq_some_iff.mp hg).1
  · have hnodup : (order ++ []).Nodup := by
      rw [append_nil]
      exact horder.nodup_iff.mpr nodup_range
    obtain ⟨all, hpatched, hvisited⟩ := patchGroups_visit hm.fix_fix
      (apart_of_slots hslots hapart) order hnodup patched_nil ⟨nofun, nofun⟩
    apply fullyPatched hpatched hvisited
    intro j g hg
    rw [append_nil, mem_reverse, horder.mem_iff, mem_range]
    exact (List.getElem?_eq_some_iff.mp hg).1

end Install

end Rueidis
