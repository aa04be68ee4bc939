import Rueidis.Pipe.Handover

/-!
# The connection has one user

A call that comes alone uses the connection itself, until the worker is started for those that came
meanwhile.  Between leaving the counter and starting the worker it relies on them: were the last one
refused, a new call would be alone again, and use the connection together with the worker.
-/

namespace Rueidis

open List Option Threads

/-- Where calls are before the first CAS, when no put was refused. -/
def Pc.isEarly : Pc → Bool
  | casBgState _ _ => false
  | leaving zero => zero
  | refused => false
  | answered => false
  | _ => true

structure Early (s : PipeSystem) : Prop where
  zero : s.state = 0
  alone : ∀ (i j : Nat) (t u : Thread), s.threads[i]? = some t → s.threads[j]? = some u →
    t.pc.owes = true → u.pc.owes = true → i = j
  early : ∀ t ∈ s.threads, t.pc.isEarly = true
  /-- A call that has left to start the worker has left others behind. -/
  others : ∀ t ∈ s.threads, t.pc.owes = true → t.pc.isCounted = false →
    ∃ u ∈ s.threads, u.pc.isCounted = true

structure Late (s : PipeSystem) : Prop where
  state : s.state ≠ 0
  sync : ∀ t ∈ s.threads, t.pc ≠ .sync

variable {s s' : PipeSystem} {i : Nat} {t : Thread}

/-! ## After the first CAS -/

namespace Late

theorem deliver {w : WorkerPc} (h : Late s) (hstep : s.deliver w = some s') : Late s' := by
  unfold PipeSystem.deliver at hstep
  split at hstep
  · cases hstep
  · split at hstep
    · cases hstep
    · split at hstep <;> cases hstep
      exact ⟨h.state, forall_mem_set h.sync (by simp)⟩

theorem worker {a : WorkerAct} (h : Late s) (hstep : workerStep s a = some s') : Late s' := by
  have hdeliver (w : WorkerPc) (h' : s.deliver w = some s') : Late s' := h.deliver h'
  obtain ⟨hstate, hsync⟩ := h
  unfold workerStep at hstep
  grind [PipeSystem.exit, Late]

theorem writer {a : WriterAct} (h : Late s) (hstep : writerStep s a = some s') : Late s' := by
  obtain ⟨hstate, hsync⟩ := h
  unfold writerStep at hstep
  grind [PipeSystem.exit, Late]

theorem thread {a : ThreadAct} (h : Late s) (hstep : threadStep s i t a = some s') : Late s' := by
  have hafter (after : After) : after.pc ≠ .sync := by cases after <;> simp [After.pc]
  obtain ⟨hstate, hsync⟩ := h
  unfold threadStep at hstep
  grind [PipeSystem.setPc, PipeSystem.startWorker, afterLoad, mem_or_eq_of_mem_set, Late]

end Late

/-! ## Before it -/

namespace Early

variable (h : Early s)

include h

/-- A call goes on to `pc`; the count changes only where it was its turn to start the worker. -/
theorem move (ht : s.threads[i]? = some t) {pc : Pc} (howes : pc.owes = true → t.pc.owes = true)
    (hearly : pc.isEarly = true) (hcounted : t.pc.owes = true ∨ pc.isCounted = t.pc.isCounted)
    (hothers : pc.owes = true → pc.isCounted = false → 0 < (s.setPc i t pc).counted) :
    Early (s.setPc i t pc) := by
  refine ⟨h.zero, fun j k u v hu hv huo hvo => ?_, ?_, fun u hu huo huc => ?_⟩
  · have halone := h.alone
    have hu := of_getElem?_set hu
    have hv := of_getElem?_set hv
    grind
  · exact forall_mem_set h.early hearly
  · apply countP_pos_iff.mp
    obtain ⟨j, hj⟩ := mem_iff_getElem?.mp hu
    rcases of_getElem?_set hj with ⟨rfl, rfl⟩ | ⟨hji, hj⟩
    · exact hothers huo huc
    · rcases hcounted with hto | hsame
      · exact absurd (h.alone j i u t hj ht huo hto) hji
      · have hkept := PipeSystem.counted_setPc_same ht pc hsame
        have hpos := countP_pos_iff.mpr (h.others u (mem_of_getElem? hj) huo huc)
        exact Nat.lt_of_lt_of_eq hpos hkept.symm

variable (hover : Handover s)

include hover

theorem leave (ht : s.threads[i]? = some t) {zero : Bool} (hleaving : t.pc = .leaving zero)
    {pc : Pc}
    (hpc : pc =
      if zero ∧ waitsOf (s.wrCounter + decrLoIncrHi) ≠ 0 then .casState false .done else .returned) :
    Early (s.setPc i t pc) := by
  have hearly := h.early t (mem_of_getElem? ht)
  have howes : t.pc.owes = true := by
    rw [hleaving] at hearly ⊢
    exact hearly
  refine h.move ht (fun _ => howes) ?_ (.inl howes) fun hpcOwes hout => ?_
  · subst hpc
    split <;> rfl
  · by_contra hnone
    have hcount := PipeSystem.counted_setPc ht pc
    have hcounter := hover.counter
    rw [hleaving, hout, Nat.eq_zero_of_not_pos hnone] at hcount
    rw [← show 0 + 1 = s.counted from hcount] at hcounter
    have hleft : waitsOf (s.wrCounter + decrLoIncrHi) = 0 :=
      UInt32.toNat_inj.mp (waitsOf_pred (.inr rfl) hcounter)
    rw [hpc, if_neg fun hzero => hzero.2 hleft] at hpcOwes
    cases hpcOwes

theorem idle : s.worker = .idle ∧ s.writer = .none :=
  hover.idle (by_contra fun hbg => hover.started hbg h.zero)

theorem thread (ht : s.threads[i]? = some t) {a : ThreadAct} (ha : a ≠ .refuse)
    (hstep : threadStep s i t a = some s') : Early s' ∨ Late s' := by
  have hearly := h.early t (mem_of_getElem? ht)
  unfold threadStep at hstep
  split at hstep
  case h_11 => cases hstep
  all_goals rename_i hpc
  all_goals rw [hpc] at hearly
  case h_1 waits =>
    rw [← some.inj hstep, afterLoad, h.zero, if_neg (by decide), if_pos rfl]
    split
    · exact .inl (h.move ht nofun rfl (.inr (by rw [hpc]; rfl)) nofun)
    next hone =>
      have howes : t.pc.owes = true := by rw [hpc, not_not.mp hone]; rfl
      split <;> exact .inl (h.move ht (fun _ => howes) rfl (.inl howes) nofun)
  case h_2 failed =>
    rw [← some.inj hstep]
    have howes : t.pc.owes = true := by rw [hpc]; rfl
    split <;> exact .inl (h.move ht (fun _ => howes) rfl (.inl howes) nofun)
  case h_3 =>
    rw [← some.inj hstep]
    -- a call that uses the connection would be another one whose turn it is
    refine .inr ⟨by simp [h.zero], fun u hu hsync => ?_⟩
    obtain ⟨j, hj⟩ := mem_iff_getElem?.mp hu
    rcases of_getElem?_set hj with ⟨rfl, rfl⟩ | ⟨hji, hj⟩
    · cases hsync
    · exact hji (h.alone j i u t hj ht (by rw [hsync]; rfl) (by rw [hpc]; rfl))
  case h_5 =>
    rw [← some.inj hstep]
    have hmove : Early (s.setPc i t (.waiting false)) :=
      h.move ht nofun rfl (.inr (by rw [hpc]; rfl)) nofun
    exact .inl { hmove with }
  case h_6 => exact absurd rfl ha
  case h_7 =>
    split at hstep <;> cases hstep
    exact .inl (h.move ht nofun rfl (.inr (by rw [hpc]; rfl)) nofun)
  case h_8 zero =>
    rw [← some.inj hstep]
    have hleave := h.leave hover ht hpc rfl
    exact .inl ⟨hleave.zero, hleave.alone, hleave.early, hleave.others⟩
  all_goals cases hearly

theorem call (hbound : s.counted < 0x100000000) (t : Thread)
    (hpc : t.pc = .entered (waitsOf (s.wrCounter + 1))) (c : UInt64) :
    Early { s with wrCounter := c, threads := s.threads ++ [t] } := by
  have hfirst : t.pc.owes = true → ∀ u ∈ s.threads, u.pc.owes = false := by
    intro howes u hu
    rw [hpc] at howes
    have hwaits := congrArg UInt32.toNat (beq_iff_eq.mp howes)
    rw [waitsOf_succ hover.counter] at hwaits
    have hnone : s.counted = 0 := by
      change _ = 1 at hwaits
      omega
    have hall := countP_eq_zero.mp hnone
    have hothers := h.others u hu
    grind
  refine ⟨h.zero, ?_, ?_, fun _ _ _ _ => ⟨t, by simp, by rw [hpc]; rfl⟩⟩
  · have halone := h.alone
    grind
  · rw [forall_mem_append]
    exact ⟨h.early, by simp [hpc, Pc.isEarly]⟩

end Early

/-! ## Runs -/

def PipeAct.refuses : PipeAct → Bool
  | thread _ .refuse => true
  | _ => false

theorem phase_step {a : PipeAct} (hover : Handover s) (hbound : s.counted < 0x100000000)
    (ha : a.refuses = false) (h : Early s ∨ Late s) (hstep : pipeStep s a = some s') :
    Early s' ∨ Late s' := by
  cases a with
  | call req ctx =>
    cases hstep
    exact h.imp (fun h => h.call hover hbound _ rfl _) fun h =>
      ⟨h.state, forall_mem_append.mpr ⟨h.sync, by simp⟩⟩
  | thread i a =>
    unfold pipeStep at hstep
    dsimp only at hstep
    split at hstep
    · cases hstep
    next t ht =>
      exact h.elim (fun h => h.thread hover ht (by rintro rfl; cases ha) hstep)
        fun h => .inr (h.thread hstep)
  | worker a =>
    rcases h with h | h
    · cases a <;> simp [pipeStep, workerStep, (h.idle hover).1] at hstep
    · exact .inr (h.worker hstep)
  | writer a =>
    rcases h with h | h
    · cases a <;> simp [pipeStep, writerStep, (h.idle hover).2] at hstep
    · exact .inr (h.writer hstep)
  | timer =>
    cases hstep
    rcases h with h | h
    · exact .inl { h with zero := by simp [PipeSystem.exit, h.zero] }
    · refine .inr ⟨?_, h.sync⟩
      have hstate := h.state
      grind [PipeSystem.exit]

/-- In every run without a refused put: at most one call uses the connection itself, and none does
once the worker was started. -/
theorem connection_exclusive (acts : List PipeAct)
    (hbound : Machine.Guarded pipeStep
      (fun s a => s.counted < 0x100000000 ∧ a.refuses = false) {} acts)
    (s : PipeSystem) (h : Machine.run pipeStep {} acts = some s) :
    (∀ (i j : Nat) (t u : Thread), s.threads[i]? = some t → s.threads[j]? = some u →
      t.pc = .sync → u.pc = .sync → i = j) ∧
    ∀ t ∈ s.threads, t.pc = .sync → s.worker = .idle ∧ s.writer = .none := by
  have hinv : Handover s ∧ (Early s ∨ Late s) :=
    Machine.run_invariant_guarded pipeStep
      (fun _ _ _ hs hg hstep => And.intro (hs.1.step hg.1 hstep) (phase_step hs.1 hg.1 hg.2 hs.2 hstep))
      ⟨handover_new, .inl ⟨rfl, by simp, by simp, by simp⟩⟩ hbound h
  rcases hinv.2 with h | h
  · refine ⟨fun i j t u ht hu hts hus => ?_, fun _ _ _ => ?_⟩
    · exact h.alone i j t u ht hu (by rw [hts]; rfl) (by rw [hus]; rfl)
    · exact h.idle hinv.1
  · exact ⟨fun i _ t _ ht _ hsync _ => absurd hsync (h.sync t (mem_of_getElem? ht)),
      fun t ht hsync => absurd hsync (h.sync t ht)⟩

theorem connection_exclusive_two :
    let acts : List PipeAct := [.call (.one (newCompleted [lit "PING"])) {},
      .call (.multi [newCompleted [lit "INCR", lit "k"], newCompleted [lit "GET", lit "k"]]) {},
      .thread 0 .load, .thread 1 .load]
    ∃ s, Machine.run pipeStep {} acts = some s ∧ s.threads.map (·.pc) = [.sync, .queueing] ∧
      s.worker = .idle := by
  intro acts
  refine ⟨_, rfl, rfl, ?_⟩
  exact ((connection_exclusive acts (by decide) _ rfl).2 _ (.head _) rfl).1

end Rueidis
