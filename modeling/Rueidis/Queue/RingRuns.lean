import Rueidis.Queue.RingMatching

/-!
# Runs of the ring

What holds after any interleaving of puts, the writer and the reader: the puts and the answers
match, and a channel is not handed out again while its last user may still read from it.
-/

namespace Rueidis

open List Machine

/-! ## The invariant over a run -/

variable {s : RingSystem} {factor : Int} {acts : List RingAction} {c : Nat → SlotState}
  {parked order : List (Nat × RingPut)} {n : RingNode}

theorem ringInv_new (factor : Int) : RingInv (newRingSystem factor) (fun _ => .free) [] [] where
  holds := by
    intro i hi
    have hnode : (newRingSystem factor).ring.node i = {} := by
      show (replicate (2 ^ _) ({} : RingNode)).getD i {} = {}
      generalize 2 ^ _ = size
      rw [getD_eq_getElem?_getD, getElem?_replicate]
      split <;> rfl
    rw [hnode]
    rfl
  write := rfl
  read1 := rfl
  read2 := rfl
  putSlots := rfl
  orderSlots := rfl
  conserved := Perm.refl _
  parkedIff := by simp
  parkedOnce := nodup_nil
  writtenIff := by simp
  window := by
    show 0 ≤ _
    omega
  handed := rfl
  results := rfl

theorem ringInv_run (h : run ringStep (newRingSystem factor) acts = some s) :
    ∃ c parked order, RingInv s c parked order := by
  have hstep : ∀ s a t, (∃ c parked order, RingInv s c parked order) → ringStep s a = some t →
      ∃ c parked order, RingInv t c parked order := by
    rintro s a t ⟨c, parked, order, hs⟩ hstep
    exact hs.moved (ringStep_cases hstep)
  exact run_invariant ringStep hstep ⟨_, _, _, ringInv_new factor⟩ h

-- a put that has its slot, while no other put is under way, stands in the slot the writer visits
theorem RingInv.parked_eq_nil (h : RingInv s c parked order) (hwaiting : s.waiting = [])
    (hidle : (s.ring.node (s.ring.slot (s.ring.read1 + 1))).mark ≠ 1) : parked = [] := by
  have hperm := h.conserved.map Prod.fst
  rw [hwaiting, nil_append, map_append, h.putSlots, h.orderSlots] at hperm
  by_contra hne
  have hlen := h.conserved.length_eq
  rw [hwaiting, nil_append, length_append] at hlen
  have hpos := length_pos_iff.mpr hne
  have hmem := Cyclic.mem_of_perm_turns hperm (by omega)
  obtain ⟨u, hu, hslot⟩ := mem_map.mp hmem
  obtain ⟨hlt, hput⟩ := (h.parkedIff u.1 u.2).mp hu
  apply hidle
  rw [h.read1, Ring.slot_succ_ofNat, ← hslot, h.holds.mark_eq hlt, hput]
  rfl

/-! ## Reuse of a channel -/

/-- Between two puts in one slot the first one is answered, and the answer finished after that. -/
def Reused (log : List RingEvent) : Prop :=
  ∀ l₁ l₂ l₃ i p q, log = l₁ ++ .filled i p :: (l₂ ++ .filled i q :: l₃) →
    ∃ a b res, res.ch = i ∧ l₂ = a ++ .result res :: b ∧ .finished i ∈ b

/-- The slot `i` of a put, with what happened after that put: it is in use, or its answer has been
read and is finished or holds the mutex. -/
def Guarded (n : RingNode) (i : Nat) (later : List RingEvent) : Prop :=
  n.mark ≠ 0 ∨ ∃ a b res, res.ch = i ∧ later = a ++ .result res :: b ∧
    (n.locked = true ∨ .finished i ∈ b)

structure ReuseInv (s : RingSystem) : Prop where
  guarded : ∀ i p l₁ l₂, s.log = l₁ ++ .filled i p :: l₂ →
    i < s.ring.store.length ∧ Guarded (s.ring.node i) i l₂
  reused : Reused s.log

theorem Guarded.mono {n' : RingNode} {i : Nat} {later : List RingEvent} (h : Guarded n i later)
    (hmark : n.mark ≠ 0 → n'.mark ≠ 0) (hlocked : n.locked = true → n'.locked = true)
    (more : List RingEvent) : Guarded n' i (later ++ more) := by
  rcases h with h | ⟨a, b, res, hch, rfl, h⟩
  · exact .inl (hmark h)
  · refine .inr ⟨a, b ++ more, res, hch, by simp, ?_⟩
    rcases h with h | h
    · exact .inl (hlocked h)
    · exact .inr (mem_append_left _ h)

namespace ReuseInv

variable {s : RingSystem} {r : Ring} {waiting : List (Nat × RingPut)} {e : RingEvent} {i : Nat}

-- the log without its last event
variable (h : ReuseInv s)

include h

theorem reused_append
    (hlast : ∀ l₁ l₂ i p q, e = .filled i q → s.log = l₁ ++ .filled i p :: l₂ →
      ∃ a b res, res.ch = i ∧ l₂ = a ++ .result res :: b ∧ .finished i ∈ b) :
    Reused (s.log ++ [e]) := by
  intro l₁ l₂ l₃ i p q hlog
  rw [← cons_append, ← append_assoc] at hlog
  rcases History.snoc_eq_append_cons hlog with ⟨-, heq, hold⟩ | ⟨l', rfl, hold⟩
  · exact hlast l₁ l₂ i p q heq hold
  · apply h.reused l₁ l₂ l' i p q
    rw [hold, append_assoc, cons_append]

theorem of_event (hlen : r.store.length = s.ring.store.length) (he : ∀ i p, e ≠ .filled i p)
    (hguard : ∀ i later, i < s.ring.store.length → Guarded (s.ring.node i) i later →
      Guarded (r.node i) i (later ++ [e])) : ReuseInv ⟨r, waiting, s.log ++ [e]⟩ where
  guarded := by
    intro i p l₁ l₂ hlog
    rcases History.snoc_eq_append_cons hlog with ⟨-, heq, -⟩ | ⟨l', rfl, hold⟩
    · exact absurd heq (he i p)
    · obtain ⟨hi, hg⟩ := h.guarded i p l₁ l' hold
      exact ⟨Nat.lt_of_lt_of_eq hi hlen.symm, hguard i l' hi hg⟩
  reused := by
    apply h.reused_append
    intro l₁ l₂ i p q heq
    exact absurd heq (he i q)

theorem of_setNode (hstore : r.store = s.ring.store.set i n) (he : ∀ i p, e ≠ .filled i p)
    (hself : ∀ later, Guarded (s.ring.node i) i later → Guarded n i (later ++ [e])) :
    ReuseInv ⟨r, waiting, s.log ++ [e]⟩ := by
  apply h.of_event _ he
  · intro i' later hi' hg
    show Guarded (r.store.getD i' {}) i' _
    rw [hstore]
    by_cases hii : i = i'
    · subst hii
      rw [show (s.ring.store.set i n).getD i {} = n from Ring.node_setNode_self hi' n]
      exact hself later hg
    · rw [show (s.ring.store.set i n).getD i' {} = _ from Ring.node_setNode_ne hii n]
      exact hg.mono id id _
  · rw [hstore, length_set]

theorem fill {p : RingPut} (hi : i < s.ring.store.length) (hfree : (s.ring.node i).locked = false)
    (hmark : (s.ring.node i).mark = 0) :
    ReuseInv ⟨s.ring.setNode i ((s.ring.node i).put p), waiting, s.log ++ [.filled i p]⟩ where
  guarded := by
    have hself : ((s.ring.setNode i ((s.ring.node i).put p)).node i).mark ≠ 0 := by
      rw [Ring.node_setNode_self hi]
      cases p <;> exact (by decide : (1 : UInt32) ≠ 0)
    intro i' p' l₁ l₂ hlog
    rw [Ring.length_setNode]
    rcases History.snoc_eq_append_cons hlog with ⟨-, heq, -⟩ | ⟨l', rfl, hold⟩
    · cases heq
      exact ⟨hi, .inl hself⟩
    · obtain ⟨hi', hg⟩ := h.guarded i' p' l₁ l' hold
      refine ⟨hi', ?_⟩
      by_cases hii : i = i'
      · subst hii
        exact .inl hself
      · rw [Ring.node_setNode_ne hii]
        exact hg.mono id id _
  reused := by
    apply h.reused_append
    intro l₁ l₂ i' p' q heq hold
    cases heq
    -- the new put found its slot free and unlocked
    obtain ⟨-, hg⟩ := h.guarded i p' l₁ l₂ hold
    rcases hg with hg | ⟨a, b, res, hch, rfl, hg⟩
    · exact absurd hmark hg
    · rw [hfree] at hg
      exact ⟨a, b, res, hch, rfl, hg.resolve_left nofun⟩

theorem lock :
    ReuseInv ⟨{ s.ring.setNode i { s.ring.node i with locked := true } with resc := some i },
      waiting, s.log⟩ where
  guarded := by
    intro i' p l₁ l₂ hlog
    obtain ⟨hi, hg⟩ := h.guarded i' p l₁ l₂ hlog
    show i' < (s.ring.setNode i _).store.length ∧ Guarded ((s.ring.setNode i _).node i') i' l₂
    rw [Ring.length_setNode, ← append_nil l₂]
    refine ⟨hi, ?_⟩
    by_cases hii : i = i'
    · subst hii
      rw [Ring.node_setNode_self hi]
      refine hg.mono ?_ ?_ _
      · exact id
      · exact fun _ => rfl
    · rw [Ring.node_setNode_ne hii]
      exact hg.mono id id _
  reused := h.reused

omit h

theorem moved {t : RingSystem} (hinv : RingInv s c parked order) (h : ReuseInv s)
    (hm : RingMoved s t) : ReuseInv t := by
  cases hm with
  | stay => exact h
  | ticket p =>
    exact h.of_event rfl nofun fun i later _ hg => hg.mono id id _
  | fill j i p hj hfree hmark =>
    obtain ⟨hlt, hget⟩ := List.getElem?_eq_some_iff.mp hj
    refine h.fill (hinv.waiting_slot_lt (p := p) ?_) hfree hmark
    rw [← hget]
    exact List.getElem_mem hlt
  | hand i hi hmark =>
    refine h.of_setNode rfl nofun fun later hg => .inl ?_
    show (2 : UInt32) ≠ 0
    decide
  | result i hi hmark =>
    exact h.of_setNode rfl nofun fun later hg => .inr ⟨later, [], _, rfl, rfl, .inl rfl⟩
  | noResult i => exact h.lock
  | finish i =>
    refine h.of_setNode rfl nofun ?_
    rintro later (hg | ⟨a, b, res, hch, rfl, -⟩)
    · exact .inl hg
    · refine .inr ⟨a, b ++ [.finished i], res, hch, by simp, .inr ?_⟩
      exact List.mem_append_right _ List.mem_cons_self

end ReuseInv

theorem reuseInv_new (factor : Int) : ReuseInv (newRingSystem factor) where
  guarded := by
    intro i p l₁ l₂ hlog
    exact absurd hlog (by simp [newRingSystem])
  reused := by
    intro l₁ l₂ l₃ i p q hlog
    exact absurd hlog (by simp [newRingSystem])

theorem reuseInv_run (h : run ringStep (newRingSystem factor) acts = some s) :
    ReuseInv s := by
  have hstep : ∀ s a t, (∃ c parked order, RingInv s c parked order) ∧ ReuseInv s →
      ringStep s a = some t → (∃ c parked order, RingInv t c parked order) ∧ ReuseInv t := by
    rintro s a t ⟨⟨c, parked, order, hs⟩, hr⟩ hstep
    have hm := ringStep_cases hstep
    exact ⟨hs.moved hm, hr.moved hs hm⟩
  have hnew := ringInv_new factor
  exact (run_invariant ringStep hstep ⟨⟨_, _, _, hnew⟩, reuseInv_new factor⟩ h).2

/-! ## Matching -/

/-- After any interleaving a put waits for its slot, stands in its slot for the writer, or was
handed to the writer once.  The answers are those of the handed puts, in order and field for field,
and a channel is reused only after `FinishResult`. -/
theorem ring_matching (factor : Int) (acts : List RingAction) (s : RingSystem)
    (h : run ringStep (newRingSystem factor) acts = some s) :
    (∃ parked order : List (Nat × RingPut),
      (puts s.log).Perm (s.waiting ++ parked ++ order) ∧
      (∀ u ∈ parked, { s.ring.node u.1 with locked := false } = ({} : RingNode).put u.2) ∧
      (∀ r, s.waiting = [] → s.ring.nextWriteCmd = some (r, none) → parked = []) ∧
      handed s.log = order.map writeCmdOf ∧
      results s.log = (order.take (results s.log).length).map resultChOf) ∧
    Reused s.log := by
  obtain ⟨c, parked, order, hs⟩ := ringInv_run h
  refine ⟨⟨parked, order, hs.conserved, ?_, ?_, hs.handed, hs.results⟩, (reuseInv_run h).reused⟩
  · intro u hu
    obtain ⟨hlt, hput⟩ := (hs.parkedIff u.1 u.2).mp hu
    rw [hs.holds u.1 hlt, hput]
    rfl
  · intro r hwaiting hnone
    apply hs.parked_eq_nil hwaiting
    intro hmark
    unfold Ring.nextWriteCmd at hnone
    simp only [hmark, if_true] at hnone
    split at hnone <;> cases hnone

theorem ring_matching_two_slots :
    let acts := [.ticket (.one multiCmd), .ticket (.multi [execCmd] 7), .ticket (.one execCmd),
      .fill 0, .nextWriteCmd, .nextResultCh, .fill 0, .finishResult, .fill 0, .waitForWrite,
      .nextResultCh]
    ∃ s, run ringStep (newRingSystem 1) acts = some s ∧
      results s.log = [⟨multiCmd, none, 1, none⟩, ⟨{}, some [execCmd], 0, some 7⟩] ∧
      Reused s.log := by
  intro acts
  have h : run ringStep (newRingSystem 1) acts = some _ := rfl
  exact ⟨_, h, rfl, (ring_matching 1 acts _ h).2⟩

/-- What is written and not answered fits into the slots, and the reader finds a call in its slot
exactly when an answer is due. -/
theorem ring_window (factor : Int) (acts : List RingAction) (s : RingSystem)
    (h : run ringStep (newRingSystem factor) acts = some s) :
    (handed s.log).length ≤ (results s.log).length + s.ring.period ∧
    ((s.ring.node (s.ring.slot (s.ring.read2 + 1))).mark = 2 ↔
      (results s.log).length < (handed s.log).length) := by
  obtain ⟨c, parked, order, hs⟩ := ringInv_run h
  have hlt := s.ring.mod_period_lt ((results s.log).length + 1)
  rw [hs.handed, length_map, hs.read2, Ring.slot_succ_ofNat]
  apply And.intro hs.window
  constructor
  · intro hmark
    have ⟨p, hp⟩ := hs.holds.eq_written hlt hmark
    have ⟨j, hj, hget⟩ := (hs.writtenIff _ p).mp ⟨hlt, hp⟩
    have hlen := (List.getElem?_eq_some_iff.mp hget).1
    omega
  · intro hdue
    -- the first call without an answer is in the slot of its number
    have hget := getElem?_eq_getElem hdue
    have hwritten := (hs.writtenIff _ _).mpr ⟨_, Nat.le_refl _, hget⟩
    rw [hs.order_slot hget] at hwritten
    rw [hs.holds.mark_eq hlt, hwritten.2]
    rfl

theorem ring_window_two_slots :
    let acts := [.ticket (.one multiCmd), .ticket (.one execCmd), .fill 0, .nextWriteCmd]
    ∃ s, run ringStep (newRingSystem 1) acts = some s ∧
      (s.ring.node (s.ring.slot (s.ring.read2 + 1))).mark = 2 := by
  intro acts
  have h : run ringStep (newRingSystem 1) acts = some _ := rfl
  exact ⟨_, h, (ring_window 1 acts _ h).2.mpr (by decide)⟩

end Rueidis
