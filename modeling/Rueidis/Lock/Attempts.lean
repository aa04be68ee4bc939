import Rueidis.Library.Threads
import Rueidis.Lock.Model

/-!
# What an attempt can do

`Moves` lists the steps of an attempt with what they need and what they change.  The counters of an
attempt agree with its monitors, whatever the scripts answer and whenever the timer fires.
-/

namespace Rueidis.Lock

open List

inductive Moves (opt : LockOption) (store : Store) (a : Attempt) :
    AttemptAct → Attempt → Effect → Prop where
  | acquire (out : Outcome) (hpc : a.pc = .acquiring) (hgo : a.goesOn opt = true) :
      Moves opt store a (.acquire out)
        { a.acquireNext opt store out with pc := .counting (a.acquireErr opt store out == .none) }
        (a.acquireEffect opt out)
  | countOk (hpc : a.pc = .counting true) :
      Moves opt store a .count { a with pc := .acquiring, acquired := a.acquired + 1 } {}
  | countFailed (hpc : a.pc = .counting false) :
      Moves opt store a .count { a with pc := .acquiring, failures := a.failures + 1 } {}
  | endLoop (hpc : a.pc = .acquiring) (hgo : a.goesOn opt = false) :
      Moves opt store a .endLoop
        { a with pc := .stopping, background := decide (a.monitors.length < opt.totalcnt) } {}
  | acquireRest (out : Outcome) (hbackground : a.background = true)
      (hlen : a.monitors.length < opt.totalcnt) :
      Moves opt store a (.acquireRest out) (a.acquireNext opt store out) (a.acquireEffect opt out)
  | hold (hpc : a.pc = .stopping) (htimer : a.timer = .armed) (hfew : a.failures < opt.majority) :
      Moves opt store a .stop { a with timer := .stopped, pc := .held } {}
  | miss (timer : Timer) (hpc : a.pc = .stopping)
      (hcause : ¬(a.timer = .armed ∧ a.failures < opt.majority)) :
      Moves opt store a .stop { a with timer := timer, pc := .awaiting } {}
  | awaitDone (hpc : a.pc = .awaiting) : Moves opt store a .awaitDone { a with pc := .failed } {}
  | removegate (hpc : a.pc = .failed) :
      Moves opt store a .removegate { a with pc := .ended, cancelled := true, left := true }
        { drop := .remove }
  | leave (hpc : a.pc = .failed) :
      Moves opt store a .leave { a with pc := .ended, cancelled := true, left := true }
        { drop := .decrement }
  | fire : Moves opt store a .fire { a with timer := .fired, cancelled := true } {}
  | cancel : Moves opt store a .cancel { a with cancelled := true } {}
  | extended (i : Nat) (out : Outcome) : Moves opt store a (.extend i out) a {}
  | monitor (x : AttemptAct) (i : Nat) (ok : Bool) (pc pc' : MonitorPc)
      (hi : a.monitors[i]? = some ⟨ok, pc⟩)
      (hcase : (x = .ctxDone i ∧ pc = .watching ∧ pc' = .deleting ∧ a.cancelled = true) ∨
        (∃ out, x = .extend i out ∧ pc = .watching ∧ pc' = .releasing ∧
          store (a.key opt i) ≠ some a.val) ∨
        (∃ out, out.answered = false ∧ x = .extend i out ∧ pc = .watching ∧ pc' = .deleting)) :
      Moves opt store a x (a.setMonitor i ⟨ok, pc'⟩) {}
  | delkey (i : Nat) (ok : Bool) (out : Outcome) (hi : a.monitors[i]? = some ⟨ok, .deleting⟩) :
      Moves opt store a (.delkey i out) (a.setMonitor i ⟨ok, .releasing⟩)
        (Effect.ofCall (.del (a.key opt i) a.val) out)
  | release (i : Nat) (ok : Bool) (hi : a.monitors[i]? = some ⟨ok, .releasing⟩) :
      Moves opt store a (.release i)
        { a.setMonitor i ⟨ok, if opt.majority ≤ a.released + 1 then
            .cancelling (a.released + 1 == opt.totalcnt) else .finished⟩ with
          released := a.released + 1 } {}
  | cancelAt (i : Nat) (ok last : Bool) (hi : a.monitors[i]? = some ⟨ok, .cancelling last⟩) :
      Moves opt store a (.cancelAt i)
        { a.setMonitor i ⟨ok, .finished⟩ with
          cancelled := true, last := if last then .loading else a.last } {}
  | load (hlast : a.last = .loading) :
      Moves opt store a .load
        { a with last := if a.failures < opt.majority then .gating else .closing } {}
  | giveBack (hlast : a.last = .gating) :
      Moves opt store a .giveBack { a with last := .closing, left := true } { drop := .remove }
  | closeDone (hlast : a.last = .closing) :
      Moves opt store a .closeDone { a with last := .done } {}

section

variable {opt : LockOption} {store : Store} {a a' : Attempt} {x : AttemptAct} {e : Effect}

theorem moves_of_step (h : a.step opt store x = some (a', e)) : Moves opt store a x a' e := by
  cases x <;> dsimp only [Attempt.step] at h
  -- most steps have one condition, and nothing else to decide
  all_goals try (rw [Option.ite_none_right_eq_some] at h; obtain ⟨hc, h⟩ := h)
  all_goals try cases h
  case acquire out => exact .acquire out hc.1 hc.2
  case count =>
    split at h
    next hpc =>
      cases h
      exact .countOk hpc
    next hpc =>
      cases h
      exact .countFailed hpc
    · cases h
  case endLoop => exact .endLoop hc.1 (Bool.eq_false_iff.mpr hc.2)
  case acquireRest out => exact .acquireRest out hc.1 hc.2
  case stop =>
    split at h
    next hfew =>
      cases h
      exact .hold hc hfew.1 hfew.2
    next hcause =>
      cases h
      exact .miss _ hc hcause
  case awaitDone => exact .awaitDone hc.1
  case removegate => exact .removegate hc
  case leave => exact .leave hc.1
  case fire => exact .fire
  case cancel => exact .cancel
  case ctxDone i =>
    split at h
    next ok hi =>
      obtain ⟨hc, h⟩ := Option.ite_none_right_eq_some.mp h
      cases h
      exact .monitor _ i ok .watching .deleting hi (.inl ⟨rfl, rfl, rfl, hc⟩)
    · cases h
  case extend i out =>
    split at h
    next ok hi =>
      split at h
      · split at h
        · cases h
          exact .extended i out
        next hkey =>
          cases h
          exact .monitor _ i ok .watching .releasing hi (.inr (.inl ⟨out, rfl, rfl, rfl, hkey⟩))
      next hout =>
        cases h
        exact .monitor _ i ok .watching .deleting hi
          (.inr (.inr ⟨out, Bool.eq_false_iff.mpr hout, rfl, rfl, rfl⟩))
    · cases h
  case delkey i out =>
    split at h
    next ok hi =>
      cases h
      exact .delkey i ok out hi
    · cases h
  case release i =>
    split at h
    next ok hi =>
      cases h
      exact .release i ok hi
    · cases h
  case cancelAt i =>
    split at h
    next ok last hi =>
      cases h
      exact .cancelAt i ok last hi
    · cases h
  case load => exact .load hc
  case giveBack => exact .giveBack hc
  case closeDone => exact .closeDone hc

end

/-! ## Counters -/

def Monitor.past (m : Monitor) : Bool :=
  match m.pc with
  | .cancelling _ | .finished => true
  | _ => false

def Monitor.isLast (m : Monitor) : Bool := m.pc == .cancelling true

def TryPc.inLoop : TryPc → Bool
  | .acquiring | .counting _ => true
  | _ => false

def TryPc.pending : TryPc → Nat
  | .counting _ => 1
  | _ => 0

def TryPc.gained : TryPc → Nat
  | .counting true => 1
  | _ => 0

structure Attempt.Counted (opt : LockOption) (a : Attempt) : Prop where
  released : a.released = a.monitors.countP Monitor.past
  length : a.monitors.length ≤ opt.totalcnt
  last : a.monitors.countP Monitor.isLast + (if a.last = .idle then 0 else 1) =
    if a.released = opt.totalcnt then 1 else 0
  loop : a.pc.inLoop = true → a.acquired + a.failures + a.pc.pending = a.monitors.length
  settled : a.pc.inLoop = false → a.goesOn opt = false
  ok : a.acquired + a.pc.gained ≤ a.monitors.countP Monitor.ok
  held : a.pc = .held → a.failures < opt.majority
  background : a.background = true → a.pc.inLoop = false

section Counters

variable {opt : LockOption} {store : Store} {a a' : Attempt} {x : AttemptAct} {e : Effect}
  {i : Nat} {m : Monitor} {last : LastPc} {ok : Bool}

theorem Attempt.goesOn_iff :
    a.goesOn opt = true ↔ a.acquired < opt.majority ∧ a.failures < opt.majority := by
  unfold Attempt.goesOn
  rw [Bool.and_eq_true, decide_eq_true_eq, decide_eq_true_eq]

theorem newMonitor_past (err : LockErr) : (Attempt.newMonitor err).past = false := by
  cases err <;> rfl

theorem newMonitor_isLast (err : LockErr) : (Attempt.newMonitor err).isLast = false := by
  cases err <;> rfl

theorem newMonitor_ok (err : LockErr) : (Attempt.newMonitor err).ok = (err == .none) := by
  cases err <;> rfl

theorem countP_append_monitor (p : Monitor → Bool) (l : List Monitor) (m : Monitor) :
    (l ++ [m]).countP p = l.countP p + if p m then 1 else 0 := by
  rw [countP_append, countP_singleton]

theorem countP_past_lt (hi : a.monitors[i]? = some m) (hm : m.past = false) :
    a.monitors.countP Monitor.past < a.monitors.length := by
  apply lt_of_le_of_ne countP_le_length
  intro heq
  have hall := countP_eq_length.mp heq m (mem_of_getElem? hi)
  rw [hm] at hall
  cases hall

variable (h : a.Counted opt)

include h

theorem Attempt.Counted.acquireNext (store : Store) (out : Outcome)
    (hlen : a.monitors.length < opt.totalcnt) : let b := a.acquireNext opt store out
    b.released = b.monitors.countP Monitor.past ∧ b.monitors.length ≤ opt.totalcnt ∧
      b.monitors.countP Monitor.isLast + (if b.last = .idle then 0 else 1) =
        if b.released = opt.totalcnt then 1 else 0 := by
  dsimp only [Attempt.acquireNext]
  rw [countP_append_monitor, countP_append_monitor, newMonitor_past, newMonitor_isLast,
    length_append, length_singleton]
  exact ⟨h.released, hlen, h.last⟩

theorem Attempt.Counted.setMonitor (m' : Monitor) (hi : a.monitors[i]? = some m)
    (hok : m'.ok = m.ok) {released : Nat} {cancelled : Bool}
    (hreleased : released + (if m.past then 1 else 0) = a.released + if m'.past then 1 else 0)
    (hlast : (a.monitors.set i m').countP Monitor.isLast + (if m.isLast then 1 else 0) =
      a.monitors.countP Monitor.isLast + (if m'.isLast then 1 else 0) →
      (a.monitors.set i m').countP Monitor.isLast + (if last = .idle then 0 else 1) =
        if released = opt.totalcnt then 1 else 0) :
    Attempt.Counted opt { a.setMonitor i m' with
      released := released, cancelled := cancelled, last := last } := by
  have hp := Threads.countP_replaced Monitor.past hi m'
  have hk := Threads.countP_replaced Monitor.ok hi m'
  have hlen : (a.monitors.set i m').length = a.monitors.length := length_set
  refine ⟨?_, hlen.trans_le h.length, hlast (Threads.countP_replaced Monitor.isLast hi m'),
    fun hloop => (h.loop hloop).trans hlen.symm, h.settled, ?_, h.held, h.background⟩
  · have hold := h.released
    change released = (a.monitors.set i m').countP Monitor.past
    omega
  · rw [hok] at hk
    exact h.ok.trans_eq (Nat.add_right_cancel hk).symm

theorem Attempt.Counted.working {m' : Monitor} (hi : a.monitors[i]? = some m) (hok : m'.ok = m.ok)
    (hpast : m.past = false) (hpast' : m'.past = false) : (a.setMonitor i m').Counted opt := by
  have hlast : ∀ m : Monitor, m.past = false → m.isLast = false := by
    intro m hm
    obtain ⟨ok, pc⟩ := m
    cases pc with
    | cancelling last => cases hm
    | _ => rfl
  refine h.setMonitor m' hi hok (by rw [hpast, hpast']) fun hl => ?_
  rw [hlast m hpast, hlast m' hpast'] at hl
  exact (congrArg (· + _) hl).trans h.last

theorem Attempt.Counted.not_background (hpc : a.pc.inLoop = true) {p : Prop}
    (hbackground : a.background = true) : p :=
  absurd (hpc.symm.trans (h.background hbackground)) nofun

theorem Attempt.Counted.leaves (b : Attempt)
    (hb : b = { a with pc := b.pc, timer := b.timer, cancelled := b.cancelled, left := b.left })
    (hpc : a.pc.inLoop = false) (hpc' : b.pc.inLoop = false)
    (hheld : b.pc = .held → a.failures < opt.majority) : b.Counted opt := by
  have hgained : b.pc.gained = 0 := by
    cases hp : b.pc <;> first | rfl | (rw [hp] at hpc'; cases hpc')
  rw [hb]
  exact { h with
    loop := fun hloop => absurd (hpc'.symm.trans hloop) nofun
    settled := fun _ => h.settled hpc
    ok := hgained.symm ▸ Nat.le_of_add_right_le h.ok
    held := hheld
    background := fun _ => hpc' }

theorem Attempt.Counted.release (hi : a.monitors[i]? = some ⟨ok, .releasing⟩) :
    Attempt.Counted opt { a.setMonitor i ⟨ok, if opt.majority ≤ a.released + 1 then
        .cancelling (a.released + 1 == opt.totalcnt) else .finished⟩ with
      released := a.released + 1 } := by
  have htotal : opt.totalcnt = opt.majority * 2 - 1 := rfl
  have hm1 := opt.one_le_majority
  -- somebody else finds all released, if it is not this one
  have hlt : a.released < opt.totalcnt := by
    rw [h.released]
    exact Nat.lt_of_lt_of_le (countP_past_lt hi rfl) h.length
  have hnone := h.last
  rw [if_neg (Nat.ne_of_lt hlt)] at hnone
  by_cases hmaj : opt.majority ≤ a.released + 1
  · rw [if_pos hmaj]
    refine h.setMonitor ⟨ok, .cancelling _⟩ hi rfl rfl fun hl => ?_
    by_cases htot : a.released + 1 = opt.totalcnt
    · rw [htot, beq_self_eq_true] at hl ⊢
      change _ + 0 = _ + 1 at hl
      change _ + (if a.last = .idle then 0 else 1) = if opt.totalcnt = opt.totalcnt then 1 else 0
      rw [if_pos rfl]
      omega
    · rw [if_neg htot]
      rw [beq_eq_false_iff_ne.mpr htot] at hl ⊢
      change _ + 0 = _ + 0 at hl
      change _ + (if a.last = .idle then 0 else 1) = 0
      omega
  · rw [if_neg hmaj]
    refine h.setMonitor ⟨ok, .finished⟩ hi rfl rfl fun hl => ?_
    have htot : a.released + 1 ≠ opt.totalcnt := by omega
    rw [if_neg htot]
    change _ + 0 = _ + 0 at hl
    change _ + (if a.last = .idle then 0 else 1) = 0
    omega

theorem Attempt.Counted.cancelAt {last : Bool} (hi : a.monitors[i]? = some ⟨ok, .cancelling last⟩) :
    Attempt.Counted opt { a.setMonitor i ⟨ok, .finished⟩ with
      cancelled := true, last := if last then .loading else a.last } := by
  refine h.setMonitor ⟨ok, .finished⟩ hi rfl rfl fun hl => ?_
  have hold := h.last
  cases last with
  | false => exact (congrArg (· + _) hl).trans hold
  | true =>
    -- it was the only one, so nobody has gone on before
    have hone : (if a.released = opt.totalcnt then 1 else 0) ≤ 1 := by split <;> decide
    change _ + 1 = _ + 0 at hl
    change _ + 1 = if a.released = opt.totalcnt then 1 else 0
    omega

theorem Attempt.Counted.setLast (b : Attempt) (hb : b = { a with last := last, left := b.left })
    (hbefore : a.last ≠ .idle) (hafter : last ≠ .idle) : b.Counted opt := by
  have hlast := h.last
  rw [if_neg hbefore] at hlast
  rw [hb]
  refine { h with last := ?_ }
  rw [if_neg hafter]
  exact hlast

theorem Attempt.Counted.moves (hm : Moves opt store a x a' e) : a'.Counted opt := by
  have hm1 := opt.one_le_majority
  have htotal : opt.totalcnt = opt.majority * 2 - 1 := rfl
  cases hm with
  | acquire out hpc hgo =>
    have hloop : a.acquired + a.failures + a.pc.pending = _ := h.loop (by rw [hpc]; rfl)
    have hok := h.ok
    rw [hpc] at hloop hok
    change a.acquired + a.failures + 0 = _ at hloop
    have hgo' := Attempt.goesOn_iff.mp hgo
    obtain ⟨hreleased, hlength, hlast⟩ := h.acquireNext store out (by omega)
    refine ⟨hreleased, hlength, hlast, ?_, nofun, ?_, nofun, ?_⟩
    · intro _
      change a.acquired + a.failures + 1 = (a.monitors ++ [_]).length
      rw [length_append, length_singleton]
      omega
    · change a.acquired + TryPc.gained _ ≤ (a.monitors ++ [_]).countP Monitor.ok
      rw [countP_append_monitor, newMonitor_ok]
      cases a.acquireErr opt store out == .none with
      | true => exact Nat.add_le_add_right hok 1
      | false => exact hok
    · exact h.not_background (by rw [hpc]; rfl)
  | countOk hpc | countFailed hpc =>
    have hloop := h.loop (by rw [hpc]; rfl)
    have hok := h.ok
    rw [hpc] at hloop hok
    refine { h with
      loop := fun _ => ?_, settled := nofun, ok := hok, held := nofun
      background := h.not_background (by rw [hpc]; rfl) }
    dsimp only [TryPc.pending] at hloop ⊢
    omega
  | endLoop hpc hgo =>
    have hok := h.ok
    rw [hpc] at hok
    exact { h with
      loop := nofun, settled := fun _ => hgo, ok := hok, held := nofun, background := fun _ => rfl }
  | acquireRest out hbackground hlen =>
    obtain ⟨hreleased, hlength, hlast⟩ := h.acquireNext store out hlen
    have hout := h.background hbackground
    refine { h with
      released := hreleased, length := hlength, last := hlast, ok := ?_
      loop := fun hloop => absurd (hloop.symm.trans hout) nofun }
    change a.acquired + a.pc.gained ≤ (a.monitors ++ [_]).countP Monitor.ok
    rw [countP_append_monitor]
    exact Nat.le_add_right_of_le h.ok
  | hold hpc htimer hfew => exact h.leaves _ rfl (by rw [hpc]; rfl) rfl fun _ => hfew
  | miss timer hpc => exact h.leaves _ rfl (by rw [hpc]; rfl) rfl nofun
  | awaitDone hpc | removegate hpc | leave hpc => exact h.leaves _ rfl (by rw [hpc]; rfl) rfl nofun
  | fire | cancel => exact { h with }
  | extended i out => exact h
  | monitor x i ok pc pc' hi hcase =>
    rcases hcase with ⟨-, rfl, rfl, -⟩ | ⟨out, -, rfl, rfl, -⟩ | ⟨out, -, -, rfl, rfl⟩ <;>
      exact h.working hi rfl rfl rfl
  | delkey i ok out hi => exact h.working hi rfl rfl rfl
  | release i ok hi => exact h.release hi
  | cancelAt i ok last hi => exact h.cancelAt hi
  | load hlast =>
    refine h.setLast _ rfl (by rw [hlast]; nofun) ?_
    split <;> nofun
  | giveBack hlast => exact h.setLast _ rfl (by rw [hlast]; nofun) nofun
  | closeDone hlast => exact h.setLast _ rfl (by rw [hlast]; nofun) nofun

omit h

theorem counted_new (val locker : Nat) (name : Bytes) (kind : Kind) (gate : Nat) :
    Attempt.Counted opt { val, locker, name, kind, gate } := by
  have hm1 := opt.one_le_majority
  have htotal : opt.totalcnt = opt.majority * 2 - 1 := rfl
  have hne : 0 ≠ opt.totalcnt := by omega
  refine ⟨rfl, Nat.zero_le _, ?_, fun _ => rfl, nofun, Nat.le_refl _, nofun, nofun⟩
  change 0 = if 0 = opt.totalcnt then 1 else 0
  rw [if_neg hne]

end Counters

end Rueidis.Lock
