import Rueidis.Library.Threads
import Rueidis.Pipe.Worker

/-!
# No command is left in the queue

As long as the worker was not started, one of the calls under way has to start it: the one that came
when no other was there, until it finds that it is alone again, or the one that is in
`startBackground`.  The worker ends only when no call is under way, and the calls that come after
that are turned away.
-/

namespace Rueidis

open List Option Threads Machine

/-! ## The counter -/

variable {c : UInt64} {w : WorkerPc} {t : Thread} {d : UInt64}

theorem waitsOf_succ {n : Nat} (h : (waitsOf c).toNat = n % 0x100000000) :
    (waitsOf (c + 1)).toNat = (n + 1) % 0x100000000 := by
  unfold waitsOf at h ⊢
  rw [UInt64.toNat_toUInt32] at h ⊢
  rw [UInt64.toNat_add]
  have hone : (1 : UInt64).toNat = 1 := rfl
  omega

theorem waitsOf_pred (hd : d = decrLo ∨ d = decrLoIncrHi) {n : Nat}
    (h : (waitsOf c).toNat = (n + 1) % 0x100000000) :
    (waitsOf (c + d)).toNat = n % 0x100000000 := by
  unfold waitsOf at h ⊢
  rw [UInt64.toNat_toUInt32] at h ⊢
  rw [UInt64.toNat_add]
  have hlo : decrLo.toNat = 0xffffffffffffffff := rfl
  have hhi : decrLoIncrHi.toNat = 0xffffffff := rfl
  rcases hd with rfl | rfl
  · rw [hlo]
    omega
  · rw [hhi]
    omega

/-! ## Phases -/

namespace Pc

def isCounted : Pc → Bool
  | casState _ .done => false
  | casBgState _ .done => false
  | returned => false
  | _ => true

/-- The call is the first of those under way, or it is about to start the worker. -/
def owes : Pc → Bool
  | entered waits => waits == 1
  | sync => true
  | leaving zero => zero
  | casState _ _ => true
  | casBgState _ _ => true
  | _ => false

def isMid : Pc → Bool
  | casBgState _ _ => true
  | _ => false

def isWaiting : Pc → Bool
  | waiting _ => true
  | _ => false

def isLate : Pc → Bool
  | entered _ => true
  | leaving zero => !zero
  | casState _ after => after == .done
  | casBgState _ after => after == .done
  | returned => true
  | _ => false

variable {pc : Pc}

theorem isLate_of_not_isCounted (h : pc.isCounted = false) : pc.isLate = true := by
  cases pc with
  | casState skip after | casBgState skip after => cases after <;> first | rfl | cases h
  | returned => rfl
  | _ => cases h

theorem isCounted_of_isWaiting (h : pc.isWaiting = true) : pc.isCounted = true := by
  cases pc <;> first | rfl | cases h

theorem not_isLate_of_isWaiting (h : pc.isWaiting = true) : pc.isLate = false := by
  cases pc <;> first | rfl | cases h

theorem owes_of_isMid (h : pc.isMid = true) : pc.owes = true := by
  cases pc <;> first | rfl | cases h

end Pc

namespace WorkerPc

def exited : WorkerPc → Bool
  | idle => false
  | skipping => false
  | reading => false
  | failed => false
  | _ => true

def drained : WorkerPc → Bool
  | awaiting => true
  | ended => true
  | _ => false

theorem exited_of_drained (h : w.drained = true) : w.exited = true := by
  cases w <;> first | rfl | cases h

end WorkerPc

namespace PipeSystem

variable {s : PipeSystem}

def counted (s : PipeSystem) : Nat := s.threads.countP fun t => t.pc.isCounted

def queued (s : PipeSystem) : List Nat := s.unwritten ++ s.written

def held (s : PipeSystem) : List Nat := s.queued ++ s.hand.toList

theorem counted_setPc {i : Nat} (ht : s.threads[i]? = some t) (pc : Pc) :
    (s.setPc i t pc).counted + (if t.pc.isCounted then 1 else 0) =
      s.counted + if pc.isCounted then 1 else 0 :=
  countP_replaced (fun t : Thread => t.pc.isCounted) ht { t with pc := pc }

theorem counted_setPc_same {i : Nat} (ht : s.threads[i]? = some t) (pc : Pc)
    (hsame : pc.isCounted = t.pc.isCounted) : (s.setPc i t pc).counted = s.counted := by
  have hcount := counted_setPc ht pc
  rw [hsame] at hcount
  exact Nat.add_right_cancel hcount

end PipeSystem

/-! ## The invariant -/

structure Handover (s : PipeSystem) : Prop where
  counter : (waitsOf s.wrCounter).toNat = s.counted % 0x100000000
  held : ∀ i ∈ s.held, ∃ t, s.threads[i]? = some t ∧ t.pc.isWaiting = true
  nodup : s.held.Nodup
  owed : s.bgState = 0 → 0 < s.counted → ∃ t ∈ s.threads, t.pc.owes = true
  mid : s.bgState = 0 → s.state ≠ 0 → ∃ t ∈ s.threads, t.pc.isMid = true
  behind : ∀ t ∈ s.threads, t.pc.isMid = true → s.state ≠ 0
  idle : s.bgState = 0 → s.worker = .idle ∧ s.writer = .none
  started : s.bgState ≠ 0 → s.state ≠ 0
  /-- After `_exit` calls are turned away, and no call that comes after the last one is queued. -/
  exited : s.worker.exited = true → 2 ≤ s.state
  late : s.worker.drained = true → ∀ t ∈ s.threads, t.pc.isLate = true
  ended : s.state = 4 → s.worker = .ended

theorem handover_new : Handover {} where
  counter := rfl
  held := nofun
  nodup := nodup_nil
  owed := fun _ h => absurd h (by decide)
  mid := fun _ h => absurd rfl h
  behind := nofun
  idle := fun _ => ⟨rfl, rfl⟩
  started := fun h => absurd rfl h
  exited := nofun
  late := nofun
  ended := nofun

namespace Handover

variable {s : PipeSystem} {i : Nat} {t : Thread} {skip : Bool} {after : After}

variable (h : Handover s) (ht : s.threads[i]? = some t)

include h ht

theorem not_held (hw : t.pc.isWaiting = false) : i ∉ s.held := by
  intro hi
  obtain ⟨t', ht', hw'⟩ := h.held i hi
  cases ht.symm.trans ht'
  cases hw.symm.trans hw'

theorem move (pc : Pc) (hcounter : (waitsOf c).toNat = (s.setPc i t pc).counted % 0x100000000)
    (hless : (s.setPc i t pc).counted ≤ s.counted)
    (hheld : i ∈ s.held → t.pc.isWaiting = true → pc.isWaiting = true)
    (hmid : s.bgState = 0 → t.pc.isMid = false) (hmid' : pc.isMid = false)
    (howes : s.bgState = 0 → t.pc.owes = true →
      pc.owes = true ∨ (s.setPc i t pc).counted = 0 ∨ s.state ≠ 0)
    (hlate : s.worker.drained = true → t.pc.isLate = true → pc.isLate = true) :
    Handover { s.setPc i t pc with wrCounter := c } := by
  -- a call that is between the two CAS is another one
  have hmoved : s.bgState = 0 → s.state ≠ 0 → ∃ x ∈ (s.setPc i t pc).threads, x.pc.isMid = true := by
    intro hbg hstate
    rcases exists_mem_set ht (h.mid hbg hstate) { t with pc := pc } with hm | hm
    · cases (hmid hbg).symm.trans hm
    · exact hm
  refine { h with
    counter := hcounter, mid := hmoved, held := ?_, owed := ?_, behind := ?_, late := ?_ }
  · intro j hj
    apply getElem?_set_of ht (h.held j hj)
    rintro rfl
    obtain ⟨t', ht', hw⟩ := h.held _ hj
    cases ht.symm.trans ht'
    exact hheld hj hw
  · intro hbg (hpos : 0 < (s.setPc i t pc).counted)
    -- whoever owed it before still does, unless it was this call
    rcases exists_mem_set ht (h.owed hbg (Nat.lt_of_lt_of_le hpos hless))
      { t with pc := pc } with ho | ho
    · rcases howes hbg ho with ho | hzero | hstate
      · exact ⟨_, mem_set_self ht _, ho⟩
      · omega
      · obtain ⟨x, hx, hm⟩ := hmoved hbg hstate
        exact ⟨x, hx, Pc.owes_of_isMid hm⟩
    · exact ho
  · apply forall_mem_set h.behind
    intro hm
    cases hmid'.symm.trans hm
  · intro hd
    exact forall_mem_set (h.late hd) (hlate hd (h.late hd t (mem_of_getElem? ht)))

theorem moveSame (pc : Pc) (hsame : pc.isCounted = t.pc.isCounted)
    (hheld : i ∈ s.held → t.pc.isWaiting = true → pc.isWaiting = true)
    (hmid : s.bgState = 0 → t.pc.isMid = false) (hmid' : pc.isMid = false)
    (howes : s.bgState = 0 → t.pc.owes = true → pc.owes = true ∨ s.state ≠ 0)
    (hlate : s.worker.drained = true → t.pc.isLate = true → pc.isLate = true) :
    Handover (s.setPc i t pc) := by
  have hcount := PipeSystem.counted_setPc_same ht pc hsame
  refine h.move (c := s.wrCounter) ht pc ?_ (Nat.le_of_eq hcount) hheld hmid hmid'
    (fun hbg ho => (howes hbg ho).imp_right .inr) hlate
  rw [hcount]
  exact h.counter

theorem moveOut (pc : Pc) (hd : d = decrLo ∨ d = decrLoIncrHi) (hin : t.pc.isCounted = true)
    (hout : pc.isCounted = false) (hheld : i ∈ s.held → t.pc.isWaiting = true → pc.isWaiting = true)
    (hmid : t.pc.isMid = false) (hmid' : pc.isMid = false)
    (howes : t.pc.owes = true → pc.owes = true ∨ (s.setPc i t pc).counted = 0)
    (hlate : t.pc.isLate = true → pc.isLate = true) :
    Handover { s.setPc i t pc with wrCounter := s.wrCounter + d } := by
  have hcount := PipeSystem.counted_setPc ht pc
  rw [hin, hout, if_pos rfl, if_neg Bool.false_ne_true] at hcount
  refine h.move ht pc ?_ (by omega) hheld (fun _ => hmid) hmid'
    (fun _ ho => (howes ho).imp_right .inl) (fun _ => hlate)
  apply waitsOf_pred hd
  rw [hcount]
  exact h.counter

omit ht

theorem join {t : Thread} (hin : t.pc.isCounted = true) (hmid : t.pc.isMid = false)
    (howes : s.bgState = 0 → s.counted = 0 → t.pc.owes = true)
    (hlate : s.worker.drained = true → t.pc.isLate = true) :
    Handover { s with wrCounter := s.wrCounter + 1, threads := s.threads ++ [t] } := by
  have hcount : ({ s with wrCounter := s.wrCounter + 1, threads := s.threads ++ [t] } :
      PipeSystem).counted = s.counted + 1 := by
    show (s.threads ++ [t]).countP (fun t : Thread => t.pc.isCounted) = _
    rw [countP_append, countP_singleton, if_pos hin]
    rfl
  refine { h with counter := ?_, held := ?_, owed := ?_, mid := ?_, behind := ?_, late := ?_ }
  · rw [hcount]
    exact waitsOf_succ h.counter
  · intro j hj
    obtain ⟨x, hx, hw⟩ := h.held j hj
    refine ⟨x, ?_, hw⟩
    rw [List.getElem?_append_left (List.getElem?_eq_some_iff.mp hx).1]
    exact hx
  · intro hbg _
    by_cases hzero : s.counted = 0
    · exact ⟨t, mem_append_right _ mem_cons_self, howes hbg hzero⟩
    · obtain ⟨x, hx, ho⟩ := h.owed hbg (Nat.pos_of_ne_zero hzero)
      exact ⟨x, mem_append_left _ hx, ho⟩
  · intro hbg hstate
    obtain ⟨x, hx, hm⟩ := h.mid hbg hstate
    exact ⟨x, mem_append_left _ hx, hm⟩
  · exact forall_mem_append.mpr ⟨h.behind, forall_mem_singleton.mpr (by simp [hmid])⟩
  · intro hd
    exact forall_mem_append.mpr ⟨h.late hd, forall_mem_singleton.mpr (hlate hd)⟩

theorem setWorker (hbg : s.bgState ≠ 0) (hexited : w.exited = true → 2 ≤ s.state)
    (hlate : w.drained = true → ∀ t ∈ s.threads, t.pc.isLate = true)
    (hended : s.state = 4 → w = .ended) : Handover { s with worker := w } :=
  { h with
    idle := fun hzero => absurd hzero hbg
    exited := hexited
    late := hlate
    ended := hended }

theorem rehold {unwritten written : List Nat} {hand : Option Nat}
    (hperm : (unwritten ++ written ++ hand.toList).Perm s.held) :
    Handover { s with unwritten := unwritten, written := written, hand := hand } :=
  { h with
    held := fun i hi => h.held i (hperm.mem_iff.mp hi)
    nodup := hperm.nodup_iff.mpr h.nodup }

theorem exit : Handover s.exit := by
  unfold PipeSystem.exit
  by_cases hone : s.state = 1
  · rw [if_pos hone]
    have htwo : (2 : Nat) ≠ 0 := by decide
    exact { h with
      mid := fun hbg _ => h.mid hbg (by omega)
      behind := fun _ _ _ => htwo
      started := fun _ => htwo
      exited := fun _ => Nat.le_refl _
      ended := nofun }
  · rw [if_neg hone]
    exact h

omit h

theorem two_le_exit (h : s.state ≠ 0) : 2 ≤ s.exit.state := by
  unfold PipeSystem.exit
  dsimp only
  split <;> omega

include h

theorem startWorker (hstate : s.state ≠ 0) (skip : Bool) : Handover (s.startWorker skip) := by
  unfold PipeSystem.startWorker
  by_cases hbg : s.bgState = 0
  · rw [if_pos hbg]
    have hworker := (h.idle hbg).1
    exact { h with
      owed := nofun
      mid := nofun
      idle := nofun
      started := fun _ => hstate
      exited := by cases skip <;> exact nofun
      late := by cases skip <;> exact nofun
      ended := fun hfour => nomatch hworker.symm.trans (h.ended hfour) }
  · rw [if_neg hbg]
    exact h

/-! ## Steps of a call -/

include ht

theorem load {waits : UInt32} (hpc : t.pc = .entered waits) :
    Handover (s.setPc i t (afterLoad t.req t.ctx waits s.state)) := by
  obtain ⟨req, ctx, _, own⟩ := t
  cases hpc
  -- a call that goes on to the queue or the connection was not turned away
  have htaken : s.state < 2 → s.worker.drained = false := by
    intro hlt
    by_contra hd
    rw [Bool.not_eq_false] at hd
    have := h.exited (WorkerPc.exited_of_drained hd)
    omega
  unfold afterLoad
  split
  next hone =>
    have hd := htaken (by omega)
    exact h.moveSame ht .queueing rfl nofun (fun _ => rfl) rfl (fun _ _ => .inr (by omega))
      (by simp [hd])
  split
  next hzero =>
    have hd := htaken (by omega)
    split
    next hfirst =>
      exact h.moveSame ht .queueing rfl nofun (fun _ => rfl) rfl
        (fun _ ho => absurd (beq_iff_eq.mp ho) hfirst) (by simp [hd])
    -- the first call keeps what it owes
    split
    · exact h.moveSame ht (.casState false .queue) rfl nofun (fun _ => rfl) rfl (fun _ _ => .inl rfl)
        (by simp [hd])
    · exact h.moveSame ht .sync rfl nofun (fun _ => rfl) rfl (fun _ _ => .inl rfl) (by simp [hd])
  next hzero =>
    exact h.moveSame ht (.leaving false) rfl nofun (fun _ => rfl) rfl (fun _ _ => .inr hzero)
      (fun _ _ => rfl)

theorem synced (hpc : t.pc = .sync) (failed : Bool) :
    Handover (s.setPc i t (if failed then .casState true .leave else .leaving true)) := by
  obtain ⟨req, ctx, _, own⟩ := t
  cases hpc
  cases failed <;>
    exact h.moveSame ht _ rfl nofun (fun _ => rfl) rfl (fun _ _ => .inl rfl) (fun _ => nofun)

theorem casState (hpc : t.pc = .casState skip after) :
    Handover { s.setPc i t (.casBgState skip after) with
      state := if s.state = 0 then 1 else s.state } := by
  obtain ⟨req, ctx, _, own⟩ := t
  cases hpc
  have hset : (if s.state = 0 then 1 else s.state) ≠ 0 := by split <;> omega
  have hcount := PipeSystem.counted_setPc_same ht (.casBgState skip after) (by cases after <;> rfl)
  have hnew : ∃ x ∈ (s.setPc i ⟨req, ctx, .casState skip after, own⟩
      (.casBgState skip after)).threads, x.pc.isMid = true := ⟨_, mem_set_self ht _, rfl⟩
  refine { h with
    counter := ?_, held := ?_, owed := ?_, mid := fun _ _ => hnew, behind := fun _ _ _ => hset
    started := fun _ => hset, exited := ?_, late := ?_, ended := ?_ }
  · show (waitsOf s.wrCounter).toNat = (s.setPc i _ _).counted % _
    rw [hcount]
    exact h.counter
  · intro j hj
    apply getElem?_set_of ht (h.held j hj)
    rintro rfl
    exact absurd hj (h.not_held ht rfl)
  · intro _ _
    obtain ⟨x, hx, hm⟩ := hnew
    exact ⟨x, hx, Pc.owes_of_isMid hm⟩
  · -- the CAS does nothing after `_exit`
    intro he
    have := h.exited he
    rw [if_neg (by omega)]
    exact this
  · intro hd
    have hlate := h.late hd _ (mem_of_getElem? ht)
    exact forall_mem_set (h.late hd) hlate
  · intro (hfour : (if s.state = 0 then 1 else s.state) = 4)
    apply h.ended
    split at hfour <;> omega

theorem casBgState (hpc : t.pc = .casBgState skip after) :
    Handover ((s.setPc i t after.pc).startWorker skip) := by
  obtain ⟨req, ctx, _, own⟩ := t
  cases hpc
  have hstate : s.state ≠ 0 := h.behind _ (mem_of_getElem? ht) rfl
  have hstarted := h.startWorker hstate skip
  have hcomm : (s.setPc i ⟨req, ctx, .casBgState skip after, own⟩ after.pc).startWorker skip =
      (s.startWorker skip).setPc i ⟨req, ctx, .casBgState skip after, own⟩ after.pc := by
    unfold PipeSystem.startWorker PipeSystem.setPc
    split <;> rfl
  have hthreads : (s.startWorker skip).threads = s.threads := by
    unfold PipeSystem.startWorker
    split <;> rfl
  have hbg : (s.startWorker skip).bgState ≠ 0 := by
    unfold PipeSystem.startWorker
    split
    · exact Nat.one_ne_zero
    · assumption
  rw [hcomm]
  rw [← hthreads] at ht
  apply hstarted.moveSame ht after.pc
  · cases after <;> rfl
  · exact nofun
  · exact fun hzero => absurd hzero hbg
  · cases after <;> rfl
  · exact fun hzero => absurd hzero hbg
  · intro _ hlate
    cases after <;> first | rfl | cases hlate

theorem put (hpc : t.pc = .queueing) :
    Handover { s.setPc i t (.waiting false) with unwritten := s.unwritten ++ [i] } := by
  obtain ⟨req, ctx, _, own⟩ := t
  cases hpc
  have hheld : i ∉ s.held := h.not_held ht rfl
  have hmoved := h.moveSame ht (.waiting false) rfl nofun (fun _ => rfl) rfl (fun _ => nofun)
    (fun _ => nofun)
  have hperm : (s.unwritten ++ [i] ++ s.written ++ s.hand.toList).Perm (i :: s.held) := by
    unfold PipeSystem.held PipeSystem.queued
    rw [append_assoc, append_assoc, append_assoc]
    exact perm_middle
  refine { hmoved with held := ?_, nodup := ?_ }
  · intro j hj
    rcases mem_cons.mp (hperm.mem_iff.mp hj) with rfl | hj
    · refine ⟨⟨req, ctx, .waiting false, own⟩, ?_, rfl⟩
      show (s.threads.set j _)[j]? = _
      rw [List.getElem?_set, if_pos rfl, if_pos (List.getElem?_eq_some_iff.mp ht).1]
    · exact hmoved.held j hj
  · exact hperm.nodup_iff.mpr (nodup_cons.mpr ⟨hheld, h.nodup⟩)

theorem refuse (hpc : t.pc = .queueing) : Handover (s.setPc i t .refused) := by
  obtain ⟨req, ctx, _, own⟩ := t
  cases hpc
  exact h.moveSame ht .refused rfl nofun (fun _ => rfl) rfl (fun _ => nofun) (fun _ => nofun)

theorem abort (hpc : t.pc = .waiting false) : Handover (s.setPc i t (.waiting true)) := by
  obtain ⟨req, ctx, _, own⟩ := t
  cases hpc
  exact h.moveSame ht (.waiting true) rfl (fun _ _ => rfl) (fun _ => rfl) rfl (fun _ => nofun)
    (fun _ => nofun)

omit ht

theorem leaving (hbound : s.counted < 0x100000000) (ht : s.threads[i]? = some t) {zero : Bool}
    (hpc : t.pc = .leaving zero) :
    Handover { s.setPc i t (if zero ∧ waitsOf (s.wrCounter + decrLoIncrHi) ≠ 0
        then .casState false .done else .returned) with
      wrCounter := s.wrCounter + decrLoIncrHi } := by
  obtain ⟨req, ctx, _, own⟩ := t
  cases hpc
  by_cases hleft : zero ∧ waitsOf (s.wrCounter + decrLoIncrHi) ≠ 0
  · rw [if_pos hleft]
    exact h.moveOut ht (.casState false .done) (.inr rfl) rfl rfl nofun rfl rfl (fun _ => .inl rfl)
      (fun _ => rfl)
  · rw [if_neg hleft]
    refine h.moveOut ht .returned (.inr rfl) rfl rfl nofun rfl rfl ?_ (fun _ => rfl)
    intro ho
    have hnone : waitsOf (s.wrCounter + decrLoIncrHi) = 0 := by
      by_contra hne
      exact hleft ⟨ho, hne⟩
    -- the counter shows 0, so nobody is left
    have hcount : (s.setPc i ⟨req, ctx, .leaving zero, own⟩ .returned).counted + 1 = s.counted :=
      PipeSystem.counted_setPc ht .returned
    have hcounter : (waitsOf (s.wrCounter + decrLoIncrHi)).toNat =
        (s.setPc i ⟨req, ctx, .leaving zero, own⟩ .returned).counted % 0x100000000 := by
      apply waitsOf_pred (.inr rfl)
      rw [hcount]
      exact h.counter
    rw [hnone] at hcounter
    have hzero : (0 : UInt32).toNat = 0 := rfl
    exact .inr (by omega)

theorem refused (ht : s.threads[i]? = some t) (hpc : t.pc = .refused) :
    Handover { s.setPc i t .returned with wrCounter := s.wrCounter + decrLo } := by
  obtain ⟨req, ctx, _, own⟩ := t
  cases hpc
  exact h.moveOut ht .returned (.inl rfl) rfl rfl nofun rfl rfl nofun nofun

theorem answered (ht : s.threads[i]? = some t) (hpc : t.pc = .answered) :
    Handover { s.setPc i t .returned with
      wrCounter := s.wrCounter + if t.own then decrLo else decrLoIncrHi } := by
  obtain ⟨req, ctx, _, own⟩ := t
  cases hpc
  refine h.moveOut ht .returned ?_ rfl rfl nofun rfl rfl nofun nofun
  cases own
  · exact .inr rfl
  · exact .inl rfl

omit h

variable {s' : PipeSystem} {w' : WorkerPc}

include h

theorem thread (hbound : s.counted < 0x100000000) (ht : s.threads[i]? = some t) {a : ThreadAct}
    (hstep : threadStep s i t a = some s') : Handover s' := by
  unfold threadStep at hstep
  split at hstep
  · cases hstep
    exact h.load ht (by assumption)
  · cases hstep
    exact h.synced ht (by assumption) _
  · cases hstep
    exact h.casState ht (by assumption)
  · cases hstep
    exact h.casBgState ht (by assumption)
  · cases hstep
    exact h.put ht (by assumption)
  · split at hstep
    · cases hstep
      exact h.refuse ht (by assumption)
    · cases hstep
  · split at hstep
    · cases hstep
      exact h.abort ht (by assumption)
    · cases hstep
  · rw [← some.inj hstep]
    exact h.leaving hbound ht (by assumption)
  · rw [← some.inj hstep]
    exact h.refused ht (by assumption)
  · rw [← some.inj hstep]
    exact h.answered ht (by assumption)
  · cases hstep

/-! ## Steps of the worker -/

theorem bgState_ne_zero (hworker : s.worker ≠ .idle) : s.bgState ≠ 0 :=
  fun hzero => hworker (h.idle hzero).1

theorem bgState_ne_zero_of_writer (hwriter : s.writer ≠ .none) : s.bgState ≠ 0 :=
  fun hzero => hwriter (h.idle hzero).2

theorem goesOn (hw : s.worker = w) (hidle : w ≠ .idle) (hended : w ≠ .ended)
    (hexited : w'.exited = true → w.exited = true) (hdrained : w'.drained = false) :
    Handover { s with worker := w' } := by
  subst hw
  apply h.setWorker (h.bgState_ne_zero hidle)
  · exact fun he => h.exited (hexited he)
  · simp [hdrained]
  · exact fun hfour => absurd (h.ended hfour) hended

theorem exits (hw : s.worker = w) (hidle : w ≠ .idle) (hended : w ≠ .ended)
    (hdrained : w'.drained = false) : Handover { s.exit with worker := w' } := by
  subst hw
  have hbg := h.bgState_ne_zero hidle
  apply h.exit.setWorker hbg
  · exact fun _ => two_le_exit (h.started hbg)
  · simp [hdrained]
  · exact fun hfour => absurd (h.exit.ended hfour) hended

theorem deliver (hw : s.worker = w) (hidle : w ≠ .idle) (hended : w ≠ .ended)
    (hexited : w'.exited = true → w.exited = true) (hdrained : w'.drained = false)
    (hstep : s.deliver w' = some s') : Handover s' := by
  unfold PipeSystem.deliver at hstep
  split at hstep
  · cases hstep
  next i hhand =>
  split at hstep
  · cases hstep
  next t ht =>
  obtain ⟨req, ctx, pc, own⟩ := t
  dsimp only at hstep
  split at hstep
  next aborted =>
    cases hstep
    -- the command is nowhere else
    have hheld : s.held = s.queued ++ [i] := by
      unfold PipeSystem.held
      rw [hhand]
      rfl
    have hnodup := h.nodup
    rw [hheld] at hnodup
    have hqueued : ({ s with hand := none } : PipeSystem).held = s.queued := append_nil _
    have hnot : i ∉ s.queued := fun hi =>
      (nodup_append.mp hnodup).2.2 i hi i mem_cons_self rfl
    have htaken : Handover { s with hand := none } := by
      refine { h with held := ?_, nodup := ?_ }
      · rw [hqueued]
        exact fun j hj => h.held j (mem_append_left _ hj)
      · rw [hqueued]
        exact (nodup_append.mp hnodup).1
    have hmoved := htaken.moveSame ht .answered rfl
      (fun hi => absurd ((append_nil s.queued) ▸ hi) hnot) (fun _ => rfl) rfl
      (fun _ => nofun) (fun _ => nofun)
    exact hmoved.goesOn hw hidle hended hexited hdrained
  · cases hstep

theorem setClosed (closed : Bool) : Handover { s with closed := closed } :=
  { h with }

theorem setWriter (hbg : s.bgState ≠ 0) (w : WriterPc) : Handover { s with writer := w } :=
  { h with idle := fun hzero => absurd hzero hbg }

theorem nextWriteCmd (hi : i ∈ s.unwritten) :
    Handover { s with unwritten := s.unwritten.erase i, written := s.written ++ [i] } := by
  apply h.rehold
  apply Perm.append_right
  have hend : (s.unwritten.erase i ++ (s.written ++ [i])).Perm
      (i :: (s.unwritten.erase i ++ s.written)) := by
    rw [← append_assoc]
    exact perm_append_singleton _ _
  exact hend.trans ((perm_cons_erase hi).symm.append_right _)

theorem nextResultCh (hi : i ∈ s.written) (hhand : s.hand = none) :
    Handover { s with written := s.written.erase i, hand := some i } := by
  apply h.rehold
  unfold PipeSystem.held PipeSystem.queued
  rw [hhand, append_assoc]
  show (s.unwritten ++ (s.written.erase i ++ [i])).Perm (s.unwritten ++ s.written ++ [])
  rw [append_nil]
  apply Perm.append_left
  exact (perm_append_singleton _ _).trans (perm_cons_erase hi).symm

theorem loadWaits (hbound : s.counted < 0x100000000) (hw : s.worker = .cleaning) :
    Handover { s with worker := if waitsOf s.wrCounter = 0 then .awaiting else .draining } := by
  by_cases hzero : waitsOf s.wrCounter = 0
  · rw [if_pos hzero]
    have hbg := h.bgState_ne_zero (by rw [hw]; decide)
    have hnone : s.counted = 0 := by
      have hcounter := h.counter
      rw [hzero, Nat.mod_eq_of_lt hbound] at hcounter
      exact hcounter.symm
    apply h.setWorker hbg
    · exact fun _ => h.exited (by rw [hw]; rfl)
    · intro _ t ht
      apply Pc.isLate_of_not_isCounted
      by_contra hc
      rw [Bool.not_eq_false] at hc
      have hpos : 0 < s.counted := countP_pos_iff.mpr ⟨t, ht, hc⟩
      omega
    · intro hfour
      cases hw.symm.trans (h.ended hfour)
  · rw [if_neg hzero]
    exact h.goesOn hw (by decide) (by decide) (fun _ => rfl) rfl

theorem finish (hw : s.worker = .awaiting) : Handover { s with state := 4, worker := .ended } := by
  have hbg := h.bgState_ne_zero (by rw [hw]; decide)
  have hfour : (4 : Nat) ≠ 0 := by decide
  exact { h with
    behind := fun _ _ _ => hfour
    idle := fun hzero => absurd hzero hbg
    started := fun _ => hfour
    exited := fun _ => (by decide : 2 ≤ 4)
    late := fun _ => h.late (by rw [hw]; rfl)
    mid := fun hzero => absurd hzero hbg
    ended := fun _ => rfl }

theorem worker (hbound : s.counted < 0x100000000) {a : WorkerAct}
    (hstep : workerStep s a = some s') : Handover s' := by
  unfold workerStep at hstep
  split at hstep
  · cases hstep
    exact h.exits (by assumption) (by decide) (by decide) rfl
  · cases hstep
    exact (h.setClosed true).goesOn (by assumption) (by decide) (by decide) (fun _ => rfl) rfl
  · split at hstep
    · rename_i htake
      cases hstep
      exact h.nextResultCh htake.1 htake.2
    · cases hstep
  · exact h.deliver (by assumption) (by decide) (by decide) id rfl hstep
  · split at hstep
    · cases hstep
      exact h.goesOn (by assumption) (by decide) (by decide) nofun rfl
    · cases hstep
  · cases hstep
    exact h.exits (by assumption) (by decide) (by decide) rfl
  · cases hstep
    apply h.goesOn (by assumption) (by decide) (by decide) (fun _ => rfl)
    split <;> rfl
  · rename_i hw
    rw [← some.inj hstep]
    have hbg := h.bgState_ne_zero (by rw [hw]; decide)
    have hjoin := h.join (t := { req := .one pingCmd, ctx := {}, pc := .queueing, own := true }) rfl rfl
      (fun hzero => absurd hzero hbg) (by rw [hw]; exact nofun)
    exact hjoin.goesOn hw (by decide) (by decide) (fun _ => rfl) rfl
  · cases hstep
    exact h.loadWaits hbound (by assumption)
  · cases hstep
    exact h.goesOn (by assumption) (by decide) (by decide) (fun _ => rfl) rfl
  · split at hstep
    · rename_i hi
      cases hstep
      exact (h.nextWriteCmd hi.2).goesOn (by assumption) (by decide) (by decide) (fun _ => rfl) rfl
    · cases hstep
  · cases hstep
    exact h.goesOn (by assumption) (by decide) (by decide) (fun _ => rfl) rfl
  · split at hstep
    · rename_i htake
      cases hstep
      exact (h.nextResultCh htake.1 htake.2).goesOn (by assumption) (by decide) (by decide)
        (fun _ => rfl) rfl
    · cases hstep
  · exact h.deliver (by assumption) (by decide) (by decide) (fun _ => rfl) rfl hstep
  · split at hstep
    · cases hstep
      exact h.finish (by assumption)
    · cases hstep
  · cases hstep

theorem writer {a : WriterAct} (hstep : writerStep s a = some s') : Handover s' := by
  unfold writerStep at hstep
  split at hstep
  · split at hstep
    · cases hstep
      exact h.nextWriteCmd (by assumption)
    · cases hstep
  · rename_i hw
    cases hstep
    exact h.setWriter (h.bgState_ne_zero_of_writer (by rw [hw]; decide)) _
  · rename_i hw
    cases hstep
    exact h.exit.setWriter (h.bgState_ne_zero_of_writer (by rw [hw]; decide)) _
  · rename_i hw
    cases hstep
    exact (h.setClosed true).setWriter (h.bgState_ne_zero_of_writer (by rw [hw]; decide)) _
  · cases hstep

theorem step (hbound : s.counted < 0x100000000) {a : PipeAct} (hstep : pipeStep s a = some s') :
    Handover s' := by
  cases a with
  | call req ctx =>
    rw [← some.inj hstep]
    apply h.join rfl rfl
    · -- the first call gets 1
      intro _ hzero
      have hcounter := waitsOf_succ h.counter
      rw [hzero] at hcounter
      exact beq_iff_eq.mpr (UInt32.toNat_inj.mp hcounter)
    · exact fun _ => rfl
  | thread i a =>
    unfold pipeStep at hstep
    dsimp only at hstep
    cases ht : s.threads[i]? with
    | none =>
      rw [ht] at hstep
      cases hstep
    | some t =>
      rw [ht] at hstep
      exact h.thread hbound ht hstep
  | worker a => exact h.worker hbound hstep
  | writer a => exact h.writer hstep
  | timer =>
    cases hstep
    exact h.exit

end Handover

/-! ## Runs -/

/-- In every run in which never more calls are under way than the counter can hold: while the worker
was not started and a command is in the queue, there is a call that has to start the worker; and
when the worker has ended, the queue is empty. -/
theorem queue_has_worker (acts : List PipeAct)
    (hbound : Machine.Guarded pipeStep (fun s _ => s.counted < 0x100000000) {} acts)
    (s : PipeSystem) (h : run pipeStep {} acts = some s) :
    (s.bgState = 0 → s.queued ≠ [] → ∃ t ∈ s.threads, t.pc.owes = true) ∧
      (s.state = 4 → s.queued = []) := by
  have hinv : Handover s :=
    run_invariant_guarded pipeStep (fun _ _ _ hs hbound hstep => hs.step hbound hstep)
      handover_new hbound h
  -- a command in the queue has a call that waits for it
  have hwaits : ∀ i ∈ s.queued, ∃ t ∈ s.threads, t.pc.isWaiting = true := by
    intro i hi
    obtain ⟨t, ht, hw⟩ := hinv.held i (mem_append_left _ hi)
    exact ⟨t, mem_of_getElem? ht, hw⟩
  constructor
  · intro hbg hqueue
    obtain ⟨i, hi⟩ := exists_mem_of_ne_nil _ hqueue
    obtain ⟨t, ht, hw⟩ := hwaits i hi
    apply hinv.owed hbg
    exact countP_pos_iff.mpr ⟨t, ht, Pc.isCounted_of_isWaiting hw⟩
  · intro hfour
    apply eq_nil_iff_forall_not_mem.mpr
    intro i hi
    obtain ⟨t, ht, hw⟩ := hwaits i hi
    have hlate := hinv.late (by rw [hinv.ended hfour]; rfl) t ht
    cases (Pc.not_isLate_of_isWaiting hw).symm.trans hlate

theorem queue_has_worker_left :
    let get := Request.one (newCompleted [lit "GET", lit "k"])
    let acts : List PipeAct := [.call get {}, .call get {}, .thread 0 .load, .thread 1 .load,
      .thread 1 .put, .thread 0 (.synced false), .thread 0 .leave]
    ∃ s, run pipeStep {} acts = some s ∧ s.queued = [1] ∧ s.bgState = 0 ∧
      ∃ t ∈ s.threads, t.pc.owes = true := by
  intro get acts
  have hstate : (run pipeStep {} acts).map (fun s => (s.queued, s.bgState)) =
      some ([1], 0) := by
    decide
  obtain ⟨s, hrun, hs⟩ := map_eq_some_iff.mp hstate
  obtain ⟨hqueued, hbg⟩ := Prod.mk.inj hs
  have hbound : Machine.Guarded pipeStep (fun s _ => s.counted < 0x100000000) {} acts := by
    decide
  refine ⟨s, hrun, hqueued, hbg, ?_⟩
  apply (queue_has_worker acts hbound s hrun).1 hbg
  rw [hqueued]
  exact cons_ne_nil _ _

def Pc.isSyncing : Pc → Bool
  | sync => true
  | leaving zero => zero
  | casState _ after => after == .leave
  | casBgState _ after => after == .leave
  | _ => false

/-- The call that has to start the worker need not be one that uses the connection: it may not have
begun, or it may have left the counter. -/
theorem queue_without_syncing_call :
    let get := Request.one (newCompleted [lit "GET", lit "k"])
    let enqueued : List PipeAct := [.call get {}, .call get {}, .thread 1 .load, .thread 1 .put]
    let left : List PipeAct :=
      enqueued ++ [.thread 0 .load, .thread 0 (.synced false), .thread 0 .leave]
    ∀ acts ∈ [enqueued, left], ∃ s, run pipeStep {} acts = some s ∧ s.queued = [1] ∧
      s.bgState = 0 ∧ ∀ t ∈ s.threads, t.pc.isSyncing = false := by
  intro get enqueued left acts hacts
  have hstate : (run pipeStep {} acts).map
      (fun s => (s.queued, s.bgState, s.threads.all fun t => !t.pc.isSyncing)) =
      some ([1], 0, true) := by
    rcases mem_pair.mp hacts with rfl | rfl <;> decide
  obtain ⟨s, hrun, hs⟩ := map_eq_some_iff.mp hstate
  obtain ⟨hqueued, hs⟩ := Prod.mk.inj hs
  obtain ⟨hbg, hall⟩ := Prod.mk.inj hs
  refine ⟨s, hrun, hqueued, hbg, ?_⟩
  intro t ht
  have := all_eq_true.mp hall t ht
  rwa [Bool.not_eq_true'] at this

end Rueidis
