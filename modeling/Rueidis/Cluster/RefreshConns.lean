import Rueidis.Cluster.Refresh

/-!
# The connections of a refresh

A connection is registered under the address that it was made for, in the map of the client and in
that of a refresh.  So a replaced connection and the one that replaced it have the same address.
-/

namespace Rueidis

open List AList

variable {cc f : ConnRole}

def ConnMap.Registered (conns : ConnMap) : Prop :=
  ∀ addr r, conns.lookup addr = some r → r.conn.dst = addr

theorem registered_empty : ConnMap.Registered ∅ := nofun

structure Grown (conns conns' : ConnMap) : Prop where
  registered : conns.Registered → conns'.Registered
  mem : ∀ a ∈ conns, a ∈ conns'

namespace Grown

variable {conns : ConnMap}

theorem refl (conns : ConnMap) : Grown conns conns := ⟨id, fun _ => id⟩

theorem insert {addr : Bytes} {r : ConnRole} (hr : r.conn.dst = addr) :
    Grown conns (conns.insert addr r) := by
  refine ⟨fun h a s hs => ?_, fun a ha => (mem_insert _).mpr (.inr ha)⟩
  by_cases ha : a = addr
  · subst ha
    rw [lookup_insert] at hs
    cases hs
    exact hr
  · rw [lookup_insert_ne ha] at hs
    exact h a s hs

variable {α β : Type} {c : β → ConnMap} {f : β → α → β}

theorem foldl (h : ∀ b x, Grown (c b) (c (f b x))) (xs : List α) (b : β) :
    Grown (c b) (c (xs.foldl f b)) := by
  induction xs generalizing b with
  | nil => exact refl _
  | cons x xs ih =>
    have hrest := ih (f b x)
    exact ⟨hrest.registered ∘ (h b x).registered, fun a ha => hrest.mem a ((h b x).mem a ha)⟩

theorem mem_foldl (h : ∀ b x, Grown (c b) (c (f b x))) {xs : List α} {x : α} (hx : x ∈ xs) {a : Bytes}
    (hadds : ∀ b, a ∈ c (f b x)) (b : β) : a ∈ c (xs.foldl f b) := by
  obtain ⟨before, behind, rfl⟩ := append_of_mem hx
  rw [foldl_append]
  exact (foldl h behind _).mem a (hadds _)

end Grown

/-! ## Making connections -/

def CoversNodes (groups : List NodeGroup) (conns : ConnMap) : Prop :=
  ∀ g ∈ groups, ∀ n ∈ g.nodes, n.addr ∈ conns

section Dial

variable {groups : List NodeGroup} {g : NodeGroup} {order : List Nat}

theorem Dialing.grown_dial (hidden : Bool) (d : Dialing) (a : Bytes) :
    Grown d.conns (d.dial hidden a).conns :=
  Grown.insert rfl

theorem Dialing.grown_dialGroup (d : Dialing) (g : NodeGroup) : Grown d.conns (d.dialGroup g).conns :=
  Grown.foldl (c := Dialing.conns) (Dialing.grown_dial _) _ d

theorem Dialing.grown_dialInit (d : Dialing) (a : Bytes) : Grown d.conns (d.dialInit a).conns := by
  unfold Dialing.dialInit
  split
  · exact Grown.refl _
  · exact Dialing.grown_dial ..

theorem mem_dialGroups (hg : g ∈ groups) {n : NodeInfo} (hn : n ∈ g.nodes) (d : Dialing) :
    n.addr ∈ (groups.foldl Dialing.dialGroup d).conns :=
  Grown.mem_foldl (c := Dialing.conns) Dialing.grown_dialGroup hg
    (fun d => Grown.mem_foldl (c := Dialing.conns) (Dialing.grown_dial _) (mem_map_of_mem hn)
      (fun _ => (mem_insert _).mpr (.inl rfl)) d) d

theorem mem_ordered (horder : order.Perm (range groups.length)) (hg : g ∈ groups) :
    g ∈ ordered groups order := by
  obtain ⟨j, hj⟩ := mem_iff_getElem?.mp hg
  apply mem_filterMap.mpr
  refine ⟨j, horder.mem_iff.mpr (mem_range.mpr ?_), hj⟩
  exact (List.getElem?_eq_some_iff.mp hj).1

theorem dialAll_spec (opt : RefreshOption) (horder : order.Perm (range groups.length))
    (next : Nat) :
    (dialAll opt groups order next).conns.Registered ∧
      CoversNodes groups (dialAll opt groups order next).conns := by
  have hgroups := Grown.foldl (c := Dialing.conns) Dialing.grown_dialGroup (ordered groups order)
    { next := next }
  have hinits := Grown.foldl (c := Dialing.conns) Dialing.grown_dialInit opt.initAddress
    ((ordered groups order).foldl Dialing.dialGroup { next := next })
  exact ⟨hinits.registered (hgroups.registered registered_empty),
    fun g hg n hn => hinits.mem _ (mem_dialGroups (mem_ordered horder hg) hn _)⟩

end Dial

theorem takeOvers {old : ConnMap} (hold : old.Registered) (addrs : List Bytes) (conns : ConnMap) :
    Grown conns (addrs.foldl (takeOver old) conns) := by
  refine Grown.foldl (c := id) (fun conns a => ?_) addrs conns
  unfold takeOver
  split
  next cc fresh hcc hfresh => exact Grown.insert (hold a cc hcc)
  · exact Grown.refl _

/-! ## Reconciling the connections -/

/-- The connections of the client at some addresses have been looked at: what the maps are then. -/
structure Reconciled (old fresh : ConnMap) (done : List Bytes) (r : Reconciling) : Prop where
  conns : ∀ a, r.conns.lookup a = (fresh.lookup a).map fun f =>
    if a ∈ done then { f with conn := ((old.lookup a).map (·.conn)).getD f.conn } else f
  replaced : ∀ x y, r.replaced.lookup x = some y ↔
    ∃ a ∈ done, ∃ cc f, old.lookup a = some cc ∧ fresh.lookup a = some f ∧
      f.conn = x ∧ cc.conn = y ∧ x ≠ y
  removes : ∀ x, x ∈ r.removes ↔
    ∃ a ∈ done, ∃ cc, old.lookup a = some cc ∧
      ((fresh.lookup a = none ∧ cc.conn = x) ∨
        ∃ f, fresh.lookup a = some f ∧ f.conn = x ∧ f.conn ≠ cc.conn)

section Reconcile

variable {old fresh : ConnMap} {done : List Bytes} {r : Reconciling} {a : Bytes}

theorem reconciled_new (old fresh : ConnMap) : Reconciled old fresh [] { conns := fresh } := by
  refine ⟨fun a => ?_, ?_, ?_⟩
  · cases fresh.lookup a <;> simp
  all_goals simp [lookup_empty]

variable (h : Reconciled old fresh done r)

include h

theorem Reconciled.lookup_of_not_mem (ha : a ∉ done) : r.conns.lookup a = fresh.lookup a := by
  rw [h.conns a]
  simp [ha]

theorem Reconciled.step {r' : Reconciling}
    (hat : r'.conns.lookup a = (fresh.lookup a).map fun f =>
      { f with conn := ((old.lookup a).map (·.conn)).getD f.conn })
    (hother : ∀ b ≠ a, r'.conns.lookup b = r.conns.lookup b)
    (hreplaced : ∀ x y, r'.replaced.lookup x = some y ↔
      (∃ cc f, old.lookup a = some cc ∧ fresh.lookup a = some f ∧ f.conn = x ∧ cc.conn = y ∧ x ≠ y) ∨
      r.replaced.lookup x = some y)
    (hremoves : ∀ x, x ∈ r'.removes ↔ (∃ cc, old.lookup a = some cc ∧
      ((fresh.lookup a = none ∧ cc.conn = x) ∨
        ∃ f, fresh.lookup a = some f ∧ f.conn = x ∧ f.conn ≠ cc.conn)) ∨ x ∈ r.removes) :
    Reconciled old fresh (a :: done) r' := by
  refine ⟨fun b => ?_, fun x y => ?_, fun x => ?_⟩
  · by_cases hb : b = a
    · subst hb
      simp [hat]
    · simp [hother b hb, h.conns b, hb]
  · rw [hreplaced, h.replaced, exists_mem_cons_iff]
  · rw [hremoves, h.removes, exists_mem_cons_iff]

theorem Reconciled.absent (hold : old.lookup a = none) : Reconciled old fresh (a :: done) r := by
  apply h.step <;> simp [hold, h.conns a]

theorem Reconciled.remove (hold : old.lookup a = some cc) (hfresh : fresh.lookup a = none) :
    Reconciled old fresh (a :: done) { r with removes := r.removes ++ [cc.conn] } := by
  apply h.step <;> simp [hold, hfresh, h.conns a, or_comm, eq_comm]

theorem Reconciled.same (hold : old.lookup a = some cc) (hfresh : fresh.lookup a = some f)
    (heq : f.conn = cc.conn) : Reconciled old fresh (a :: done) r := by
  apply h.step <;> simp +contextual [hold, hfresh, h.conns a, ← heq]

variable (hreg : fresh.Registered)

include hreg

theorem Reconciled.replace (ha : a ∉ done) (hold : old.lookup a = some cc)
    (hfresh : fresh.lookup a = some f) (hne : f.conn ≠ cc.conn) :
    Reconciled old fresh (a :: done) {
      conns := r.conns.insert a { f with conn := cc.conn }
      removes := r.removes ++ [f.conn]
      replaced := r.replaced.insert f.conn cc.conn } := by
  refine h.step ?_ (fun b hb => lookup_insert_ne hb) (fun x y => ?_) (fun x => ?_)
  · simp [hold, hfresh]
  · by_cases hx : x = f.conn
    · subst hx
      -- a connection belongs to one address only
      have hnew : r.replaced.lookup f.conn ≠ some y := by
        intro hy
        obtain ⟨b, hb, _, f', -, hf, hx, -⟩ := (h.replaced _ _).mp hy
        have hba : b = a := by rw [← hreg b f' hf, hx, hreg a f hfresh]
        exact ha (hba ▸ hb)
      simp only [lookup_insert, hold, hfresh, Option.some.injEq, hnew, or_false]
      constructor
      · rintro rfl
        exact ⟨cc, f, rfl, rfl, rfl, rfl, hne⟩
      · rintro ⟨_, _, rfl, -, -, rfl, -⟩
        rfl
    · have hx' : f.conn ≠ x := fun h => hx h.symm
      simp [lookup_insert_ne hx, hold, hfresh, hx']
  · simp [hold, hfresh, hne, or_comm, eq_comm]

omit h

theorem reconcile_spec (ha : a ∉ done) (h : Reconciled old fresh done r) :
    Reconciled old fresh (a :: done) (reconcile old r a) := by
  have hlookup := h.lookup_of_not_mem ha
  unfold reconcile
  cases hold : old.lookup a with
  | none => exact h.absent hold
  | some cc =>
    rw [hlookup]
    cases hfresh : fresh.lookup a with
    | none => exact h.remove hold hfresh
    | some f =>
      dsimp only
      by_cases heq : f.conn = cc.conn
      · rw [if_pos heq]
        exact h.same hold hfresh heq
      · rw [if_neg heq]
        exact h.replace hreg ha hold hfresh heq

theorem reconciles_spec (addrs : List Bytes) (hnodup : (addrs ++ done).Nodup)
    (h : Reconciled old fresh done r) :
    Reconciled old fresh (addrs.reverse ++ done) (addrs.foldl (reconcile old) r) := by
  induction addrs generalizing done r with
  | nil => exact h
  | cons a addrs ih =>
    rw [cons_append, nodup_cons, mem_append, not_or] at hnodup
    rw [foldl_cons, reverse_cons, append_assoc]
    apply ih
    · rw [nodup_append] at hnodup ⊢
      refine ⟨hnodup.2.1, nodup_cons.mpr ⟨hnodup.1.2, hnodup.2.2.1⟩, fun b hb c hc => ?_⟩
      rcases mem_cons.mp hc with rfl | hc
      · exact fun heq => hnodup.1.1 (heq ▸ hb)
      · exact hnodup.2.2.2 b hb c hc
    · exact reconcile_spec hreg hnodup.1.2 h

end Reconcile

structure Merged (old fresh : ConnMap) (r : Reconciling) : Prop extends
    Reconciled old fresh old.keys r where
  old : old.Registered
  fresh : fresh.Registered

section Merged

variable {old fresh : ConnMap} {r : Reconciling} {a : Bytes}

theorem merged_of_perm {addrs : List Bytes} (haddrs : addrs.Perm old.keys) (hold : old.Registered)
    (hfresh : fresh.Registered) :
    Merged old fresh (addrs.foldl (reconcile old) { conns := fresh }) := by
  have hnodup : (addrs ++ []).Nodup := by
    rw [append_nil]
    exact haddrs.nodup_iff.mpr old.keys_nodup
  have h := reconciles_spec hfresh addrs hnodup (reconciled_new old fresh)
  have hmem : ∀ a, a ∈ addrs.reverse ++ [] ↔ a ∈ old.keys := by
    intro a
    rw [append_nil, mem_reverse, haddrs.mem_iff]
  exact ⟨⟨by simpa only [hmem] using h.conns, by simpa only [hmem] using h.replaced,
    by simpa only [hmem] using h.removes⟩, hold, hfresh⟩

theorem mem_keys_of_lookup (h : old.lookup a = some cc) : a ∈ old.keys :=
  mem_keys.mp (lookup_isSome.mp (by rw [h]; rfl))

variable (h : Merged old fresh r)

include h

theorem Merged.lookup (a : Bytes) :
    r.conns.lookup a = (fresh.lookup a).map fun f =>
      { f with conn := ((old.lookup a).map (·.conn)).getD f.conn } := by
  rw [h.conns a]
  cases hold : old.lookup a with
  | none =>
    simp
  | some cc => simp only [mem_keys_of_lookup hold, if_true]

theorem Merged.lookup_replaced {x y : NodeConn} (hxy : r.replaced.lookup x = some y) :
    ∃ cc f, old.lookup x.dst = some cc ∧ fresh.lookup x.dst = some f ∧ f.conn = x ∧ cc.conn = y ∧
      x ≠ y := by
  obtain ⟨a, -, cc, f, hold, hfresh, hx, hy, hne⟩ := (h.replaced x y).mp hxy
  have hdst : x.dst = a := hx ▸ h.fresh a f hfresh
  exact ⟨cc, f, hdst ▸ hold, hdst ▸ hfresh, hx, hy, hne⟩

theorem Merged.fix_fix (x : NodeConn) : r.replaced.fix (r.replaced.fix x) = r.replaced.fix x := by
  unfold Replaced.fix
  cases hx : r.replaced.lookup x with
  | none => simp [hx]
  | some y =>
    rw [Option.getD_some]
    cases hy : r.replaced.lookup y with
    | none => rfl
    | some z =>
      obtain ⟨cc, f, hold, hfresh, hfx, hcy, hne⟩ := h.lookup_replaced hx
      obtain ⟨-, f', -, hfresh', hfy, -⟩ := h.lookup_replaced hy
      have hdst : y.dst = x.dst := hcy ▸ h.old _ cc hold
      cases hfresh.symm.trans (hdst ▸ hfresh')
      exact absurd (hfx.symm.trans hfy) hne

theorem Merged.lookup_fix (hf : fresh.lookup a = some f) :
    r.conns.lookup a = some { f with conn := r.replaced.fix f.conn } := by
  have hdst : f.conn.dst = a := h.fresh a f hf
  rw [h.lookup a, hf, Option.map_some]
  congr 2
  unfold Replaced.fix
  cases hfix : r.replaced.lookup f.conn with
  | some y =>
    obtain ⟨cc, f', hold, -, -, hy, -⟩ := h.lookup_replaced hfix
    rw [hdst] at hold
    rw [hold, Option.map_some, hy]
  | none =>
    cases hold : old.lookup a with
    | none => rfl
    | some cc =>
      -- two different connections would have been put into the map
      by_contra hne
      have hreplaced : r.replaced.lookup f.conn = some cc.conn :=
        (h.replaced f.conn cc.conn).mpr
          ⟨a, mem_keys_of_lookup hold, cc, f, hold, hf, rfl, rfl, fun heq => hne heq.symm⟩
      cases hfix.symm.trans hreplaced

theorem Merged.registered : r.conns.Registered := by
  intro a role hrole
  rw [h.lookup a] at hrole
  obtain ⟨f, hf, rfl⟩ := Option.map_eq_some_iff.mp hrole
  cases hold : old.lookup a with
  | none => exact h.fresh a f hf
  | some cc => exact h.old a cc hold

theorem Merged.kept (hcc : old.lookup a = some cc) :
    (∃ role, r.conns.lookup a = some role ∧ role.conn = cc.conn) ∨ cc.conn ∈ r.removes := by
  cases hf : fresh.lookup a with
  | none => exact .inr ((h.removes cc.conn).mpr ⟨a, mem_keys_of_lookup hcc, cc, hcc, .inl ⟨hf, rfl⟩⟩)
  | some f => exact .inl ⟨{ f with conn := cc.conn }, by rw [h.lookup a, hf, hcc]; rfl, rfl⟩

theorem Merged.not_mem_removes {role : ConnRole} (hrole : r.conns.lookup a = some role) :
    role.conn ∉ r.removes := by
  intro hmem
  have hdst : role.conn.dst = a := h.registered a role hrole
  obtain ⟨b, -, cc, hcc, hcase⟩ := (h.removes role.conn).mp hmem
  rw [h.lookup a] at hrole
  rcases hcase with ⟨hnone, hconn⟩ | ⟨f, hf, hconn, hne⟩
  · have hba : b = a := (h.old b cc hcc).symm.trans (hconn ▸ hdst)
    rw [← hba, hnone] at hrole
    cases hrole
  · have hba : b = a := (h.fresh b f hf).symm.trans (hconn ▸ hdst)
    rw [← hba, hf, hcc] at hrole
    cases hrole
    exact hne hconn

end Merged

end Rueidis
