import Rueidis.Library.History
import Rueidis.Queue.Ring

/-!
# Every put is written once and answered in the order of writing

The slots are seen through what they hold: nothing, a put, or a written put.  The counters wrap at
32 bits, but the number of slots in use divides `2 ^ 32`, so a counter gives the slot of the number
it stands for.
-/

namespace Rueidis

open History

open Cyclic (turns)

/-! ## Counters and slots -/

variable {r : Ring} {i j : Nat}

namespace Ring

def period (r : Ring) : Nat := 2 ^ min r.scale 32

theorem mask_toNat (r : Ring) : r.mask.toNat = r.period - 1 := by
  rw [r.maskOfSize, UInt32.toNat_ofNat']
  unfold period
  by_cases h : r.scale ≤ 32
  · have hle : 2 ^ r.scale ≤ 2 ^ 32 := Nat.pow_le_pow_right (by decide) h
    have hpos : 0 < 2 ^ r.scale := Nat.two_pow_pos _
    rw [min_eq_left h]
    omega
  · -- the mask keeps the low 32 bits of a larger size
    obtain ⟨d, hd⟩ : ∃ d, r.scale = 32 + d := ⟨r.scale - 32, by omega⟩
    have hpos : 0 < 2 ^ d := Nat.two_pow_pos _
    rw [min_eq_right (by omega), hd, Nat.pow_add]
    omega

theorem slot_ofNat (r : Ring) (n : Nat) : r.slot (UInt32.ofNat n) = n % r.period := by
  unfold slot
  rw [UInt32.toNat_and, UInt32.toNat_ofNat', mask_toNat, period, Nat.and_two_pow_sub_one_eq_mod]
  apply Nat.mod_mod_of_dvd
  exact Nat.pow_dvd_pow 2 (min_le_right _ _)

theorem slot_succ_ofNat (r : Ring) (n : Nat) :
    r.slot (UInt32.ofNat n + 1) = (n + 1) % r.period := by
  rw [← slot_ofNat, UInt32.ofNat_add]
  rfl

theorem period_pos (r : Ring) : 0 < r.period := by
  exact Nat.two_pow_pos _

theorem mod_period_lt (r : Ring) (n : Nat) : n % r.period < r.store.length := by
  have hlt := Nat.mod_lt n r.period_pos
  have hle : r.period ≤ r.store.length := by
    rw [r.size]
    exact Nat.pow_le_pow_right (by decide) (min_le_left _ _)
  omega

/-! ## One slot at a time -/

@[simp] theorem length_setNode (r : Ring) (i : Nat) (n : RingNode) :
    (r.setNode i n).store.length = r.store.length := List.length_set

theorem node_setNode_self (hi : i < r.store.length) (n : RingNode) :
    (r.setNode i n).node i = n := by
  unfold node setNode
  rw [List.getD_eq_getElem?_getD, List.getElem?_set_self hi, Option.getD_some]

theorem node_setNode_ne (hij : i ≠ j) (n : RingNode) : (r.setNode i n).node j = r.node j := by
  unfold node setNode
  rw [List.getD_eq_getElem?_getD, List.getD_eq_getElem?_getD, List.getElem?_set_ne hij]

end Ring

/-! ## What a step can do -/

inductive RingMoved (s : RingSystem) : RingSystem → Prop where
  | stay : RingMoved s s
  | ticket (p : RingPut) : RingMoved s
      { ring := { s.ring with write := s.ring.write + 1 }
        waiting := s.waiting ++ [(s.ring.slot (s.ring.write + 1), p)]
        log := s.log ++ [.ticket (s.ring.slot (s.ring.write + 1)) p] }
  | fill (j i : Nat) (p : RingPut) (hj : s.waiting[j]? = some (i, p))
      (hfree : (s.ring.node i).locked = false) (hmark : (s.ring.node i).mark = 0) : RingMoved s
      { ring := s.ring.setNode i ((s.ring.node i).put p)
        waiting := s.waiting.eraseIdx j
        log := s.log ++ [.filled i p] }
  | hand (i : Nat) (hi : i = s.ring.slot (s.ring.read1 + 1)) (hmark : (s.ring.node i).mark = 1) :
      RingMoved s
      { s with ring := (s.ring.takeWrite i).1, log := s.log ++ [.handed (s.ring.takeWrite i).2] }
  | result (i : Nat) (hi : i = s.ring.slot (s.ring.read2 + 1))
      (hmark : (s.ring.node i).mark = 2) : RingMoved s
      { s with
        ring := { s.ring.setNode i { mark := 0, locked := true } with
          read2 := s.ring.read2 + 1, resc := some i }
        log := s.log ++ [.result ⟨(s.ring.node i).one, (s.ring.node i).multi, i,
          (s.ring.node i).resps⟩] }
  | noResult (i : Nat) : RingMoved s
      { s with ring :=
          { s.ring.setNode i { s.ring.node i with locked := true } with resc := some i } }
  | finish (i : Nat) : RingMoved s
      { s with
        ring := { s.ring.setNode i { s.ring.node i with locked := false } with resc := none }
        log := s.log ++ [.finished i] }

theorem ringStep_cases {s t : RingSystem} {a : RingAction} (h : ringStep s a = some t) :
    RingMoved s t := by
  cases a <;> simp only [ringStep, Option.bind_eq_bind, Option.bind_eq_some_iff] at h
  case ticket p =>
    cases h
    exact .ticket p
  case fill j =>
    obtain ⟨⟨i, p⟩, hj, r, hr, ht⟩ := h
    unfold Ring.putAt at hr
    dsimp only at hr
    split at hr
    · cases hr
    next hfree =>
    rw [not_or, Bool.not_eq_true, not_not] at hfree
    cases hr
    cases ht
    exact .fill j i p hj hfree.1 hfree.2
  case nextWriteCmd =>
    obtain ⟨⟨r, cmd⟩, hr, ht⟩ := h
    unfold Ring.nextWriteCmd at hr
    dsimp only at hr
    split at hr
    · cases hr
    split at hr <;> cases hr <;> cases ht
    next hmark => exact .hand _ rfl hmark
    · rw [Option.map_none, Option.toList_none, List.append_nil]
      exact .stay
  case waitForWrite =>
    obtain ⟨⟨r, cmd⟩, hr, ht⟩ := h
    unfold Ring.waitForWrite at hr
    dsimp only at hr
    split at hr
    · cases hr
    next hmark =>
    rw [not_or, not_not] at hmark
    cases hr
    cases ht
    exact .hand _ rfl hmark.2
  case nextResultCh =>
    obtain ⟨⟨r, res⟩, hr, ht⟩ := h
    unfold Ring.nextResultCh at hr
    dsimp only at hr
    split at hr
    · cases hr
    split at hr <;> cases hr <;> cases ht
    next hmark => exact .result _ rfl hmark
    · rw [Option.map_none, Option.toList_none, List.append_nil]
      exact .noResult _
  case finishResult =>
    unfold Ring.finishResult at h
    cases hresc : s.ring.resc <;> rw [hresc] at h <;> cases h
    · rw [Option.map_none, Option.toList_none, List.append_nil]
      exact .stay
    · exact .finish _

/-! ## What the slots hold -/

inductive SlotState where
  | free
  | put (p : RingPut)
  | written (p : RingPut)

/-- The fields of an unlocked slot in that state: nothing is left over from an earlier put. -/
def SlotState.node : SlotState → RingNode
  | .free => {}
  | .put p => ({} : RingNode).put p
  | .written p => { ({} : RingNode).put p with mark := 2 }

def SlotState.mark : SlotState → UInt32
  | .free => 0
  | .put _ => 1
  | .written _ => 2

theorem SlotState.node_mark (st : SlotState) : st.node.mark = st.mark := by
  cases st with
  | free => rfl
  | put p => cases p <;> rfl
  | written p => rfl

def Ring.Holds (r : Ring) (c : Nat → SlotState) : Prop :=
  ∀ i < r.store.length, { r.node i with locked := false } = (c i).node

namespace Ring.Holds

variable {r : Ring} {c : Nat → SlotState} {i : Nat}

variable (h : r.Holds c) (hi : i < r.store.length)

include h hi

theorem fields_eq :
    (r.node i).one = (c i).node.one ∧ (r.node i).multi = (c i).node.multi ∧
      (r.node i).resps = (c i).node.resps := by
  rw [← h i hi]
  exact ⟨rfl, rfl, rfl⟩

theorem mark_eq : (r.node i).mark = (c i).mark := by
  rw [← SlotState.node_mark, ← h i hi]

theorem eq_free (hmark : (r.node i).mark = 0) : c i = .free := by
  rw [h.mark_eq hi] at hmark
  cases hc : c i with
  | free => rfl
  | _ => simp [hc, SlotState.mark] at hmark

theorem eq_put (hmark : (r.node i).mark = 1) : ∃ p, c i = .put p := by
  rw [h.mark_eq hi] at hmark
  cases hc : c i with
  | put p => exact ⟨p, rfl⟩
  | _ => simp [hc, SlotState.mark] at hmark

theorem eq_written (hmark : (r.node i).mark = 2) : ∃ p, c i = .written p := by
  rw [h.mark_eq hi] at hmark
  cases hc : c i with
  | written p => exact ⟨p, rfl⟩
  | _ => simp [hc, SlotState.mark] at hmark

theorem setNode {n : RingNode} {st : SlotState} (hn : { n with locked := false } = st.node) :
    (r.setNode i n).Holds (Function.update c i st) := by
  intro j hj
  rw [Ring.length_setNode] at hj
  by_cases hij : i = j
  · subst hij
    rw [Ring.node_setNode_self hi, Function.update_self, hn]
  · rw [Ring.node_setNode_ne hij, Function.update_of_ne (Ne.symm hij), h j hj]

-- locking and unlocking a slot does not change what it holds
omit hi

theorem setLocked (i : Nat) (b : Bool) : (r.setNode i { r.node i with locked := b }).Holds c := by
  intro j hj
  rw [Ring.length_setNode] at hj
  by_cases hij : i = j
  · subst hij
    rw [Ring.node_setNode_self hj]
    exact h i hj
  · rw [Ring.node_setNode_ne hij, h j hj]

end Ring.Holds

theorem RingNode.put_unlocked (n : RingNode) (p : RingPut) :
    { n.put p with locked := false } = ({ n with locked := false } : RingNode).put p := by
  cases p <;> rfl

def writeCmdOf (u : Nat × RingPut) : WriteCmd :=
  let n := ({} : RingNode).put u.2
  ⟨n.one, n.multi, u.1⟩

def resultChOf (u : Nat × RingPut) : ResultCh :=
  let n := ({} : RingNode).put u.2
  ⟨n.one, n.multi, u.1, n.resps⟩

/-! ## The invariant -/

/-- `c` tells what the slots hold, `parked` lists the puts that wait for the writer in their slots,
and `order` the puts the writer got. -/
structure RingInv (s : RingSystem) (c : Nat → SlotState) (parked order : List (Nat × RingPut)) :
    Prop where
  holds : s.ring.Holds c
  write : s.ring.write = UInt32.ofNat (puts s.log).length
  read1 : s.ring.read1 = UInt32.ofNat order.length
  read2 : s.ring.read2 = UInt32.ofNat (results s.log).length
  putSlots : (puts s.log).map Prod.fst = turns s.ring.period (puts s.log).length
  orderSlots : order.map Prod.fst = turns s.ring.period order.length
  conserved : (puts s.log).Perm (s.waiting ++ parked ++ order)
  parkedIff : ∀ i p, (i, p) ∈ parked ↔ i < s.ring.store.length ∧ c i = .put p
  parkedOnce : parked.Nodup
  writtenIff : ∀ i p, (i < s.ring.store.length ∧ c i = .written p) ↔
    ∃ j, (results s.log).length ≤ j ∧ order[j]? = some (i, p)
  window : order.length ≤ (results s.log).length + s.ring.period
  handed : handed s.log = order.map writeCmdOf
  results : results s.log = (order.take (results s.log).length).map resultChOf

/-! ## The log -/

@[simp] theorem puts_append (l l' : List RingEvent) : puts (l ++ l') = puts l ++ puts l' :=
  List.filterMap_append

@[simp] theorem handed_append (l l' : List RingEvent) :
    handed (l ++ l') = handed l ++ handed l' := List.filterMap_append

@[simp] theorem results_append (l l' : List RingEvent) :
    results (l ++ l') = results l ++ results l' := List.filterMap_append

/-! ## Each kind of step keeps the invariant -/

namespace RingInv

variable {s : RingSystem} {c : Nat → SlotState} {parked order : List (Nat × RingPut)} {p : RingPut}

variable (h : RingInv s c parked order)

include h

theorem order_slot (hj : order[j]? = some (i, p)) : i = (j + 1) % s.ring.period := by
  have hlt : j < order.length := (List.getElem?_eq_some_iff.mp hj).1
  have hslot := congrArg (fun l => l[j]?) h.orderSlots
  simp only [List.getElem?_map, hj, Cyclic.getElem?_turns hlt, Option.map_some,
    Option.some.injEq] at hslot
  exact hslot

theorem waiting_slot_lt (hw : (i, p) ∈ s.waiting) : i < s.ring.store.length := by
  have hput : (i, p) ∈ puts s.log := by
    rw [h.conserved.mem_iff]
    simp [hw]
  have hturn : i ∈ turns s.ring.period (puts s.log).length := by
    rw [← h.putSlots]
    exact List.mem_map_of_mem hput
  obtain ⟨j, -, rfl⟩ := List.mem_map.mp hturn
  exact s.ring.mod_period_lt _

theorem frame {log : List RingEvent} (hperiod : r.period = s.ring.period)
    (hlen : r.store.length = s.ring.store.length) (hwrite : r.write = s.ring.write)
    (hread1 : r.read1 = s.ring.read1) (hread2 : r.read2 = s.ring.read2) (hholds : r.Holds c)
    (hputs : puts log = puts s.log) (hhanded : Rueidis.handed log = Rueidis.handed s.log)
    (hresults : Rueidis.results log = Rueidis.results s.log) :
    RingInv { s with ring := r, log := log } c parked order where
  holds := hholds
  write := by rw [hwrite, hputs, h.write]
  read1 := by rw [hread1, h.read1]
  read2 := by rw [hread2, hresults, h.read2]
  putSlots := by rw [hputs, hperiod, h.putSlots]
  orderSlots := by rw [hperiod, h.orderSlots]
  conserved := hputs ▸ h.conserved
  parkedIff := hlen ▸ h.parkedIff
  parkedOnce := h.parkedOnce
  writtenIff := by
    rw [hlen, hresults]
    exact h.writtenIff
  window := by
    rw [hresults, hperiod]
    exact h.window
  handed := hhanded ▸ h.handed
  results := hresults ▸ h.results

theorem ticket (p : RingPut) :
    RingInv
      { ring := { s.ring with write := s.ring.write + 1 }
        waiting := s.waiting ++ [(s.ring.slot (s.ring.write + 1), p)]
        log := s.log ++ [.ticket (s.ring.slot (s.ring.write + 1)) p] } c parked order := by
  generalize hslot : s.ring.slot (s.ring.write + 1) = i
  have hputs : puts (s.log ++ [.ticket i p]) = puts s.log ++ [(i, p)] := puts_append _ _
  have hhanded : Rueidis.handed (s.log ++ [.ticket i p]) = Rueidis.handed s.log :=
    filterMap_snoc_none rfl _
  have hresults : Rueidis.results (s.log ++ [.ticket i p]) = Rueidis.results s.log :=
    filterMap_snoc_none rfl _
  rw [h.write, Ring.slot_succ_ofNat] at hslot
  refine { h with
    write := ?_, read2 := hresults ▸ h.read2, putSlots := ?_, conserved := ?_
    writtenIff := hresults ▸ h.writtenIff, window := hresults ▸ h.window
    handed := hhanded ▸ h.handed, results := hresults ▸ h.results }
  · rw [hputs, List.length_append, UInt32.ofNat_add, ← h.write]
    rfl
  · rw [hputs, List.map_append, h.putSlots, List.length_append, List.length_singleton]
    show _ = turns s.ring.period ((puts s.log).length + 1)
    rw [Cyclic.turns_succ, hslot]
    rfl
  · rw [hputs]
    refine (h.conserved.append_right _).trans ?_
    simp only [List.append_assoc]
    apply List.Perm.append_left
    rw [← List.append_assoc]
    exact List.perm_append_comm

theorem fill (hj : s.waiting[j]? = some (i, p)) (hmark : (s.ring.node i).mark = 0) : RingInv
      { ring := s.ring.setNode i ((s.ring.node i).put p)
        waiting := s.waiting.eraseIdx j
        log := s.log ++ [.filled i p] }
      (Function.update c i (.put p)) ((i, p) :: parked) order := by
  obtain ⟨hlt, hget⟩ := List.getElem?_eq_some_iff.mp hj
  have hi : i < s.ring.store.length := by
    apply h.waiting_slot_lt (p := p)
    rw [← hget]
    exact List.getElem_mem hlt
  have hfree : c i = .free := h.holds.eq_free hi hmark
  have hputs : puts (s.log ++ [.filled i p]) = puts s.log := filterMap_snoc_none rfl _
  have hhanded : Rueidis.handed (s.log ++ [.filled i p]) = Rueidis.handed s.log :=
    filterMap_snoc_none rfl _
  have hresults : Rueidis.results (s.log ++ [.filled i p]) = Rueidis.results s.log :=
    filterMap_snoc_none rfl _
  refine { h with
    holds := ?_, write := hputs ▸ h.write, read2 := hresults ▸ h.read2
    putSlots := hputs ▸ h.putSlots, conserved := ?_, parkedIff := ?_, parkedOnce := ?_
    writtenIff := ?_, window := hresults ▸ h.window, handed := hhanded ▸ h.handed
    results := hresults ▸ h.results }
  · apply h.holds.setNode hi
    rw [RingNode.put_unlocked, h.holds i hi, hfree]
    rfl
  · rw [hputs]
    have hperm := List.getElem_cons_eraseIdx_perm hlt
    rw [hget] at hperm
    refine h.conserved.trans ?_
    simp only [List.append_assoc, List.cons_append]
    refine (hperm.symm.append_right _).trans ?_
    rw [List.cons_append]
    exact List.perm_middle.symm
  · intro i' q
    rw [Ring.length_setNode, List.mem_cons, h.parkedIff]
    by_cases hii : i' = i
    · subst hii
      rw [Function.update_self, hfree]
      simp [hi, eq_comm]
    · rw [Function.update_of_ne hii]
      simp [hii]
  · rw [List.nodup_cons, h.parkedIff, hfree]
    exact ⟨by simp, h.parkedOnce⟩
  · intro i' q
    rw [Ring.length_setNode, hresults, ← h.writtenIff]
    by_cases hii : i' = i
    · subst hii
      rw [Function.update_self, hfree]
      simp
    · rw [Function.update_of_ne hii]

theorem results_le : (Rueidis.results s.log).length ≤ order.length := by
  rw [h.results, List.length_map, List.length_take]
  omega

theorem not_due_of_put (hp : c i = .put p) (k : Nat) (q : RingPut)
    (hk : (Rueidis.results s.log).length ≤ k) : order[k]? ≠ some (i, q) := by
  intro hkq
  have hwritten := ((h.writtenIff i q).mpr ⟨k, hk, hkq⟩).2
  rw [hp] at hwritten
  cases hwritten

theorem window_lt (hi : i = (order.length + 1) % s.ring.period) (hp : c i = .put p) :
    order.length < (Rueidis.results s.log).length + s.ring.period := by
  by_contra hfull
  have hlen : order.length = (Rueidis.results s.log).length + s.ring.period := by
    have := h.window
    omega
  have hpos := s.ring.period_pos
  have hk : (Rueidis.results s.log).length < order.length := by omega
  have hget := List.getElem?_eq_getElem hk
  have hslot := h.order_slot (j := (Rueidis.results s.log).length)
    (i := (order[(Rueidis.results s.log).length]).1)
    (p := (order[(Rueidis.results s.log).length]).2) hget
  -- the first of them would be in the slot that is next
  apply h.not_due_of_put hp _ (order[(Rueidis.results s.log).length]).2 (Nat.le_refl _)
  rw [hget, hi, hlen, Nat.add_right_comm, Nat.add_mod_right, ← hslot]

theorem due_unique {n k : Nat} {q : RingPut} (hn : (Rueidis.results s.log).length = n)
    (hi : i = (n + 1) % s.ring.period) (hk : n ≤ k) (hkq : order[k]? = some (i, q)) : k = n := by
  by_contra hne
  have hkl : k < order.length := (List.getElem?_eq_some_iff.mp hkq).1
  have hwindow := h.window
  rw [hn] at hwindow
  apply Cyclic.mod_ne_of_lt (m := s.ring.period) (i := n + 1) (j := k + 1) (by omega) (by omega)
  rw [← hi, h.order_slot hkq]

theorem hand (hi : i = s.ring.slot (s.ring.read1 + 1)) (hmark : (s.ring.node i).mark = 1) :
    ∃ c' parked' order', RingInv
      { s with ring := (s.ring.takeWrite i).1, log := s.log ++ [.handed (s.ring.takeWrite i).2] }
      c' parked' order' := by
  rw [h.read1, Ring.slot_succ_ofNat] at hi
  have hlt : i < s.ring.store.length := by
    rw [hi]
    exact s.ring.mod_period_lt _
  obtain ⟨p, hp⟩ := h.holds.eq_put hlt hmark
  obtain ⟨hone, hmulti, -⟩ := h.holds.fields_eq hlt
  have hcmd : (s.ring.takeWrite i).2 = writeCmdOf (i, p) := by
    show WriteCmd.mk (s.ring.node i).one (s.ring.node i).multi i = _
    rw [hone, hmulti, hp]
    rfl
  rw [hcmd]
  have hputs : puts (s.log ++ [.handed (writeCmdOf (i, p))]) = puts s.log :=
    filterMap_snoc_none rfl _
  have hresults : Rueidis.results (s.log ++ [.handed (writeCmdOf (i, p))]) =
      Rueidis.results s.log := filterMap_snoc_none rfl _
  have hle := h.results_le
  have hnone := h.not_due_of_put hp
  have hwindow := h.window_lt hi hp
  refine ⟨Function.update c i (.written p), parked.erase (i, p), order ++ [(i, p)],
    ⟨?_, hputs ▸ h.write, ?_, hresults ▸ h.read2, hputs ▸ h.putSlots, ?_, ?_, ?_,
      h.parkedOnce.erase _, ?_, ?_, ?_, ?_⟩⟩
  · apply h.holds.setNode hlt
    show { { s.ring.node i with locked := false } with mark := 2 } = _
    rw [h.holds i hlt, hp]
    rfl
  · rw [List.length_append, UInt32.ofNat_add, ← h.read1]
    rfl
  · rw [List.map_append, h.orderSlots, List.length_append, List.length_singleton]
    rw [Cyclic.turns_succ, hi]
    rfl
  · rw [hputs]
    have hmem : (i, p) ∈ parked := (h.parkedIff i p).mpr ⟨hlt, hp⟩
    refine h.conserved.trans ?_
    simp only [List.append_assoc]
    apply List.Perm.append_left
    refine ((List.perm_cons_erase hmem).append_right _).trans ?_
    rw [List.cons_append, ← List.append_assoc]
    exact (List.perm_append_singleton _ _).symm
  · intro i' q
    rw [h.parkedOnce.mem_erase_iff, h.parkedIff]
    show _ ↔ i' < (s.ring.setNode i _).store.length ∧ _
    rw [Ring.length_setNode]
    by_cases hii : i' = i
    · subst hii
      rw [Function.update_self, hp]
      constructor
      · rintro ⟨hne, -, hq⟩
        cases hq
        exact absurd rfl hne
      · exact fun hq => nomatch hq.2
    · rw [Function.update_of_ne hii]
      simp [hii]
  · intro i' q
    rw [hresults]
    show i' < (s.ring.setNode i _).store.length ∧ _ ↔ _
    rw [Ring.length_setNode]
    by_cases hii : i' = i
    · subst hii
      rw [Function.update_self]
      constructor
      · rintro ⟨-, hq⟩
        cases hq
        exact ⟨order.length, hle, (getElem?_snoc_iff _ _ _ _).mpr (.inr ⟨rfl, rfl⟩)⟩
      · rintro ⟨k, hk, hkq⟩
        rcases (getElem?_snoc_iff _ _ _ _).mp hkq with hold | ⟨-, hnew⟩
        · exact absurd hold (hnone k q hk)
        · cases hnew
          exact ⟨hlt, rfl⟩
    · rw [Function.update_of_ne hii, h.writtenIff]
      constructor
      · rintro ⟨k, hk, hkq⟩
        exact ⟨k, hk, (getElem?_snoc_iff _ _ _ _).mpr (.inl hkq)⟩
      · rintro ⟨k, hk, hkq⟩
        rcases (getElem?_snoc_iff _ _ _ _).mp hkq with hold | ⟨-, hnew⟩
        · exact ⟨k, hk, hold⟩
        · exact absurd (congrArg Prod.fst hnew).symm hii
  · rw [hresults, List.length_append, List.length_singleton]
    show _ ≤ _ + s.ring.period
    omega
  · rw [handed_append, h.handed, List.map_append]
    rfl
  · rw [hresults, List.take_append_of_le_length hle]
    exact h.results

theorem result (hi : i = s.ring.slot (s.ring.read2 + 1)) (hmark : (s.ring.node i).mark = 2) :
    ∃ c', RingInv
      { s with
        ring := { s.ring.setNode i { mark := 0, locked := true } with
          read2 := s.ring.read2 + 1, resc := some i }
        log := s.log ++ [.result ⟨(s.ring.node i).one, (s.ring.node i).multi, i,
          (s.ring.node i).resps⟩] } c' parked order := by
  rw [h.read2, Ring.slot_succ_ofNat] at hi
  have hlt : i < s.ring.store.length := by
    rw [hi]
    exact s.ring.mod_period_lt _
  obtain ⟨p, hp⟩ := h.holds.eq_written hlt hmark
  obtain ⟨hone, hmulti, hresps⟩ := h.holds.fields_eq hlt
  have hres : ResultCh.mk (s.ring.node i).one (s.ring.node i).multi i (s.ring.node i).resps =
      resultChOf (i, p) := by
    rw [hone, hmulti, hresps, hp]
    rfl
  rw [hres]
  generalize hn : (Rueidis.results s.log).length = n at hi
  obtain ⟨k, hk, hkp⟩ := (h.writtenIff i p).mp ⟨hlt, hp⟩
  rw [hn] at hk
  have hget : order[n]? = some (i, p) := by
    rw [← h.due_unique hn hi hk hkp]
    exact hkp
  have hnext : Rueidis.results (s.log ++ [.result (resultChOf (i, p))]) =
      Rueidis.results s.log ++ [resultChOf (i, p)] := results_append _ _
  have hlen : (Rueidis.results (s.log ++ [.result (resultChOf (i, p))])).length = n + 1 := by
    rw [hnext, List.length_append, hn]
    rfl
  have hputs : puts (s.log ++ [.result (resultChOf (i, p))]) = puts s.log :=
    filterMap_snoc_none rfl _
  have hhanded : Rueidis.handed (s.log ++ [.result (resultChOf (i, p))]) =
      Rueidis.handed s.log := filterMap_snoc_none rfl _
  refine ⟨Function.update c i .free, { h with
    holds := h.holds.setNode hlt rfl, write := hputs ▸ h.write, read2 := ?_
    putSlots := hputs ▸ h.putSlots, conserved := hputs ▸ h.conserved, parkedIff := ?_
    writtenIff := ?_, window := ?_, handed := hhanded ▸ h.handed, results := ?_ }⟩
  · rw [hlen, UInt32.ofNat_add, ← hn, ← h.read2]
    rfl
  · intro i' q
    rw [h.parkedIff]
    rw [Ring.length_setNode]
    by_cases hii : i' = i
    · subst hii
      rw [Function.update_self, hp]
      simp
    · rw [Function.update_of_ne hii]
  · intro i' q
    rw [hlen]
    rw [Ring.length_setNode]
    by_cases hii : i' = i
    · subst hii
      rw [Function.update_self]
      constructor
      · exact fun hq => nomatch hq.2
      · rintro ⟨k, hk, hkq⟩
        have := h.due_unique hn hi (by omega) hkq
        omega
    · rw [Function.update_of_ne hii, h.writtenIff, hn]
      constructor
      · rintro ⟨k, hk, hkq⟩
        have hkn : k ≠ n := by
          rintro rfl
          rw [hget] at hkq
          exact hii (congrArg Prod.fst (Option.some.inj hkq)).symm
        exact ⟨k, by omega, hkq⟩
      · rintro ⟨k, hk, hkq⟩
        exact ⟨k, by omega, hkq⟩
  · rw [hlen]
    have hwindow := h.window
    rw [hn] at hwindow
    show _ ≤ n + 1 + s.ring.period
    omega
  · have hold := h.results
    rw [hn] at hold
    rw [hlen, List.take_add_one, hget, List.map_append, ← hold]
    exact hnext

theorem moved {t : RingSystem} (hm : RingMoved s t) :
    ∃ c' parked' order', RingInv t c' parked' order' := by
  cases hm with
  | stay => exact ⟨c, parked, order, h⟩
  | ticket p => exact ⟨c, parked, order, h.ticket p⟩
  | fill j i p hj hfree hmark => exact ⟨_, _, _, h.fill hj hmark⟩
  | hand i hi hmark => exact h.hand hi hmark
  | result i hi hmark =>
    obtain ⟨c', hc'⟩ := h.result hi hmark
    exact ⟨c', parked, order, hc'⟩
  | noResult i =>
    exact ⟨c, parked, order, h.frame rfl (Ring.length_setNode _ _ _) rfl rfl rfl
      (h.holds.setLocked i true) rfl rfl rfl⟩
  | finish i =>
    exact ⟨c, parked, order, h.frame rfl (Ring.length_setNode _ _ _) rfl rfl rfl
      (h.holds.setLocked i false) (filterMap_snoc_none rfl _)
      (filterMap_snoc_none rfl _) (filterMap_snoc_none rfl _)⟩

end RingInv

end Rueidis
