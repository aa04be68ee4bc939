import Rueidis.Library.History
import Rueidis.Library.Machine
import Rueidis.Library.References
import Rueidis.Lock.Attempts

/-!
# The counts of the gates

A call that took a gate gives it up once: through `removegate`, in the loop of `WithContext`, or by the
last monitor of a lock that was held.  They agree as long as the timer does not stop a call that had its
majority, and the last monitor does not look before the last failure is counted; otherwise both give the
gate up.
-/

namespace Rueidis.Lock

open List Option Machine

def Attempt.uses (a : Attempt) (γ : Nat) : Bool := !a.left && γ == a.gate

def System.users (s : System) (γ : Nat) : Nat := s.attempts.countP (·.uses γ)

/-! ## Steps -/

section

variable {opt : LockOption} {store : Store} {a a' : Attempt} {x : AttemptAct} {e : Effect}
  {s s' : System}

theorem Moves.frame (h : Moves opt store a x a' e) :
    a'.val = a.val ∧ a'.locker = a.locker ∧ a'.name = a.name ∧ a'.kind = a.kind ∧
      a'.gate = a.gate := by
  cases h <;> exact ⟨rfl, rfl, rfl, rfl, rfl⟩

theorem step_act {t : Nat} (h : s.step opt (.act t x) = some s') :
    ∃ a a' e, s.attempts[t]? = some a ∧ Moves opt s.store a x a' e ∧
      s' = { s.apply a e with attempts := s.attempts.set t a' } := by
  unfold System.step at h
  dsimp only at h
  split at h
  · cases h
  next a ha =>
  split at h
  · cases h
  next a' e hmove => exact ⟨a, a', e, ha, moves_of_step hmove, (some.inj h).symm⟩

theorem Moves.left_cases (h : Moves opt store a x a' e) :
    (e.drop = .keep ∧ a'.left = a.left) ∨
      (e.drop ≠ .keep ∧ a'.left = true ∧ (a.pc = .failed ∨ a.last = .gating)) := by
  cases h with
  | acquire | acquireRest =>
    refine .inl ⟨?_, rfl⟩
    unfold Attempt.acquireEffect
    split
    · rfl
    · cases ‹Outcome› <;> rfl
  | delkey i ok out => exact .inl ⟨by cases out <;> rfl, rfl⟩
  | removegate hpc | leave hpc => exact .inr ⟨nofun, rfl, .inl hpc⟩
  | giveBack hlast => exact .inr ⟨nofun, rfl, .inr hlast⟩
  | _ => exact .inl ⟨rfl, rfl⟩

end

/-! ## Who gives the gate up -/

/-- The timer stops only a call that failed anyway, and the last monitor looks at failures that are
counted. -/
def Attempt.InTime (opt : LockOption) (a : Attempt) (x : AttemptAct) : Prop :=
  (x = .stop → a.failures < opt.majority → a.timer = .armed) ∧ (x = .load → a.pc ≠ .counting false)

instance (opt : LockOption) (a : Attempt) (x : AttemptAct) : Decidable (a.InTime opt x) :=
  inferInstanceAs (Decidable (_ ∧ _))

def TryPc.isFailing : TryPc → Bool
  | .awaiting | .failed | .ended => true
  | _ => false

structure Attempt.Agreed (opt : LockOption) (a : Attempt) : Prop where
  failing : a.pc.isFailing = true → opt.majority ≤ a.failures
  given : a.last = .gating ∨ (a.left = true ∧ a.pc ≠ .ended) →
    a.failures < opt.majority ∧ a.monitors.length = opt.totalcnt ∧ a.pc ≠ .counting false
  first : a.last = .idle ∨ a.last = .loading ∨ a.last = .gating → a.left = true → a.pc = .ended

section Agreed

variable {opt : LockOption} {store : Store} {a a' : Attempt} {x : AttemptAct} {e : Effect}

theorem Attempt.Counted.length_eq (h : a.Counted opt) (hlast : a.last ≠ .idle) :
    a.monitors.length = opt.totalcnt := by
  have hone := h.last
  rw [if_neg hlast] at hone
  have hreleased : a.released = opt.totalcnt := by
    by_contra hne
    rw [if_neg hne] at hone
    omega
  have hle : a.monitors.countP Monitor.past ≤ a.monitors.length := countP_le_length
  rw [h.released] at hreleased
  exact Nat.le_antisymm h.length (hreleased ▸ hle)

theorem Attempt.Counted.length_lt (h : a.Counted opt) (hpc : a.pc = .acquiring)
    (hgo : a.goesOn opt = true) : a.monitors.length < opt.totalcnt := by
  have hloop := h.loop (by rw [hpc]; rfl)
  rw [hpc] at hloop
  change a.acquired + a.failures + 0 = _ at hloop
  have htotal : opt.totalcnt = opt.majority * 2 - 1 := rfl
  have hlt := Attempt.goesOn_iff.mp hgo
  omega

variable (h : a.Agreed opt)

include h

theorem Attempt.Agreed.left_eq_false (hgive : a.pc = .failed ∨ a.last = .gating) :
    a.left = false := by
  apply Bool.eq_false_iff.mpr
  intro hleft
  rcases hgive with hpc | hlast
  · have hmany := h.failing (by rw [hpc]; rfl)
    have hfew := h.given (.inr ⟨hleft, by rw [hpc]; nofun⟩)
    omega
  · have hended := h.first (.inr (.inr hlast)) hleft
    have hmany := h.failing (by rw [hended]; rfl)
    have hfew := h.given (.inl hlast)
    omega

theorem Attempt.Agreed.goes {b : Attempt} (hlast : b.last = a.last) (hleft : b.left = a.left)
    (hpc : a.pc ≠ .ended) (hfailing : b.pc.isFailing = true → opt.majority ≤ b.failures)
    (hgiven : a.failures < opt.majority → a.monitors.length = opt.totalcnt →
      a.pc ≠ .counting false →
      b.failures < opt.majority ∧ b.monitors.length = opt.totalcnt ∧ b.pc ≠ .counting false) :
    b.Agreed opt := by
  refine ⟨hfailing, ?_, ?_⟩
  · rw [hlast, hleft]
    intro hcase
    have ⟨hfew, hlen, hcounted⟩ := h.given (hcase.imp_right fun hc => ⟨hc.1, hpc⟩)
    exact hgiven hfew hlen hcounted
  · rw [hlast, hleft]
    intro hcase htrue
    exact absurd (h.first hcase htrue) hpc

theorem Attempt.Agreed.rest {b : Attempt} (hlast : b.last = a.last) (hleft : b.left = a.left)
    (hpc : b.pc = a.pc) (hfailures : b.failures = a.failures)
    (hlen : a.monitors.length = opt.totalcnt → b.monitors.length = opt.totalcnt) :
    b.Agreed opt := by
  refine ⟨?_, ?_, ?_⟩
  · rw [hpc, hfailures]
    exact h.failing
  · rw [hlast, hleft, hpc, hfailures]
    intro hcase
    have ⟨hfew, hall, hcounted⟩ := h.given hcase
    exact ⟨hfew, hlen hall, hcounted⟩
  · rw [hlast, hleft, hpc]
    exact h.first

theorem Attempt.Agreed.setMonitor (i : Nat) (m : Monitor) : (a.setMonitor i m).Agreed opt :=
  h.rest rfl rfl rfl rfl fun hall => length_set.trans hall

omit h

theorem Attempt.Counted.last_eq_idle (h : a.Counted opt) {i : Nat} {ok : Bool}
    (hi : a.monitors[i]? = some ⟨ok, .cancelling true⟩) : a.last = .idle := by
  have hpos : 0 < a.monitors.countP Monitor.isLast :=
    countP_pos_iff.mpr ⟨_, mem_of_getElem? hi, rfl⟩
  have hone := h.last
  by_contra hne
  rw [if_neg hne] at hone
  split at hone <;> omega

theorem Attempt.Agreed.cancelAt (h : a.Agreed opt) (hc : a.Counted opt) {i : Nat} {ok last : Bool}
    (hi : a.monitors[i]? = some ⟨ok, .cancelling last⟩) :
    Attempt.Agreed opt { a.setMonitor i ⟨ok, .finished⟩ with
      cancelled := true, last := if last then .loading else a.last } := by
  cases last with
  | false => exact (h.setMonitor i ⟨ok, .finished⟩).rest rfl rfl rfl rfl id
  | true =>
    have hidle := hc.last_eq_idle hi
    refine ⟨h.failing, ?_, ?_⟩
    · rintro (hgating | hleft)
      · cases hgating
      · have ⟨hfew, hall, hcounted⟩ := h.given (.inr hleft)
        exact ⟨hfew, length_set.trans hall, hcounted⟩
    · intro _
      exact h.first (.inl hidle)

theorem Attempt.Agreed.load (h : a.Agreed opt) (hc : a.Counted opt) (hlast : a.last = .loading)
    (hcounted : a.pc ≠ .counting false) :
    Attempt.Agreed opt
      { a with last := if a.failures < opt.majority then .gating else .closing } := by
  have hall := hc.length_eq (by rw [hlast]; nofun)
  refine ⟨h.failing, ?_, ?_⟩
  · rintro (hgating | hleft)
    · by_cases hfew : a.failures < opt.majority
      · exact ⟨hfew, hall, hcounted⟩
      · rw [if_neg hfew] at hgating
        cases hgating
    · exact h.given (.inr hleft)
  · intro _
    exact h.first (.inr (.inl hlast))

theorem Attempt.Agreed.moves (h : a.Agreed opt) (hc : a.Counted opt) (hin : a.InTime opt x)
    (hm : Moves opt store a x a' e) : a'.Agreed opt := by
  cases hm with
  | acquire out hpc hgo =>
    refine h.goes rfl rfl (by rw [hpc]; nofun) nofun ?_
    intro _ hall
    exact absurd hall (Nat.ne_of_lt (hc.length_lt hpc hgo))
  | countOk hpc | endLoop hpc | hold hpc =>
    exact h.goes rfl rfl (by rw [hpc]; nofun) nofun fun hfew hall _ => ⟨hfew, hall, nofun⟩
  | countFailed hpc =>
    refine h.goes rfl rfl (by rw [hpc]; nofun) nofun ?_
    intro _ _ hcounted
    exact absurd hpc hcounted
  | acquireRest out hbackground hlen =>
    refine h.rest rfl rfl rfl rfl ?_
    intro hall
    exact absurd hall (Nat.ne_of_lt hlen)
  | miss timer hpc hcause =>
    refine h.goes rfl rfl (by rw [hpc]; nofun) ?_ fun hfew hall _ => ⟨hfew, hall, nofun⟩
    -- with fewer failures the timer was still armed
    intro _
    by_contra hfew
    have hfew := Nat.lt_of_not_le hfew
    exact hcause ⟨hin.1 rfl hfew, hfew⟩
  | awaitDone hpc =>
    refine h.goes rfl rfl (by rw [hpc]; nofun) ?_ fun hfew hall _ => ⟨hfew, hall, nofun⟩
    intro _
    exact h.failing (by rw [hpc]; rfl)
  | removegate hpc | leave hpc =>
    have hmany := h.failing (by rw [hpc]; rfl)
    refine ⟨fun _ => hmany, ?_, fun _ _ => rfl⟩
    rintro (hgating | hleft)
    · exact absurd (h.given (.inl hgating)).1 (Nat.not_lt.mpr hmany)
    · exact absurd rfl hleft.2
  | fire | cancel => exact h.rest rfl rfl rfl rfl id
  | extended i out => exact h
  | monitor x i ok pc pc' hi hcase => exact h.setMonitor i _
  | delkey i ok out hi => exact h.setMonitor i _
  | release i ok hi => exact (h.setMonitor i _).rest rfl rfl rfl rfl id
  | cancelAt i ok last hi => exact h.cancelAt hc hi
  | load hlast => exact h.load hc hlast (hin.2 rfl)
  | giveBack hlast =>
    refine ⟨h.failing, fun _ => h.given (.inl hlast), ?_⟩
    rintro (hidle | hidle | hidle) <;> cases hidle
  | closeDone hlast =>
    refine ⟨h.failing, ?_, ?_⟩
    · rintro (hgating | hleft)
      · cases hgating
      · exact h.given (.inr hleft)
    · rintro (hidle | hidle | hidle) <;> cases hidle

theorem agreed_new (val locker : Nat) (name : Bytes) (kind : Kind) (gate : Nat) :
    Attempt.Agreed opt { val, locker, name, kind, gate } := by
  refine ⟨nofun, ?_, nofun⟩
  rintro (hgating | ⟨hleft, -⟩)
  · cases hgating
  · cases hleft

end Agreed

/-! ## The system -/

def System.InTime (opt : LockOption) (s : System) : LockAct → Prop
  | .act t x => ∀ a ∈ s.attempts[t]?, a.InTime opt x
  | _ => True

instance (opt : LockOption) (s : System) : ∀ act, Decidable (s.InTime opt act)
  | .act t x => inferInstanceAs (Decidable (∀ a ∈ s.attempts[t]?, a.InTime opt x))
  | .start _ _ _ | .runLate _ | .expire _ => inferInstanceAs (Decidable True)

def System.MadeFor (s : System) (γ locker : Nat) (name : Bytes) : Prop :=
  ∃ g, s.gate[γ]? = some g ∧ g.locker = locker ∧ g.name = name

structure System.Gated (opt : LockOption) (s : System) : Prop where
  attempts : ∀ a ∈ s.attempts, a.Counted opt ∧ a.Agreed opt
  made : ∀ a ∈ s.attempts, s.MadeFor a.gate a.locker a.name
  map : ∀ l n γ, s.gates l n = some γ → s.MadeFor γ l n
  counted : References.Counted Gate.w Attempt.uses s.gate s.attempts
  registered : ∀ a ∈ s.attempts, a.left = false → s.gates a.locker a.name = some a.gate

section System

variable {opt : LockOption} {s s' : System} {a a' : Attempt} {x : AttemptAct} {e : Effect}

theorem madeFor_addW {γ locker : Nat} {name : Bytes} (h : s.MadeFor γ locker name) (γ' : Nat)
    (d : Int) :
    ∃ g, (s.addW γ' d)[γ]? = some g ∧ g.locker = locker ∧ g.name = name := by
  obtain ⟨g, hg, hlocker, hname⟩ := h
  unfold System.addW
  by_cases hγ : γ' = γ
  · subst hγ
    rw [getElem?_modify_eq, hg]
    exact ⟨_, rfl, hlocker, hname⟩
  · rw [getElem?_modify_ne _ _ hγ]
    exact ⟨g, hg, hlocker, hname⟩

theorem uses_new (val locker : Nat) (name : Bytes) (kind : Kind) (gate γ : Nat) :
    Attempt.uses { val, locker, name, kind, gate } γ = (γ == gate) :=
  Bool.true_and _

theorem uses_of_left_eq (hgate : a'.gate = a.gate) (hleft : a'.left = a.left) (γ : Nat) :
    a'.uses γ = a.uses γ := by
  unfold Attempt.uses
  rw [hgate, hleft]

theorem dropGate_gate {d : Drop} (hd : d ≠ .keep) : (s.dropGate a d).gate = s.addW a.gate (-1) := by
  cases d with
  | keep => exact absurd rfl hd
  | decrement | remove => rfl

theorem dropGate_gates (d : Drop) :
    (s.dropGate a d).gates = s.gates ∨
      (∃ g, (s.addW a.gate (-1))[a.gate]? = some g ∧ g.w = 0) ∧
        (s.dropGate a d).gates = s.setGate a.locker a.name none := by
  cases d with
  | keep | decrement => exact .inl rfl
  | remove =>
    unfold System.dropGate
    dsimp only
    split
    · rename_i hc
      obtain ⟨g, hg, hw⟩ := (any_eq_true _ _).mp hc.1
      exact .inr ⟨⟨g, hg, eq_of_beq hw⟩, rfl⟩
    · exact .inl rfl

variable (h : s.Gated opt)

include h

theorem Gated.join {locker γ : Nat} {name : Bytes} (kind : Kind) {gates : Nat → Bytes → Option Nat}
    {gate : List Gate}
    (hold : ∀ {γ l n}, s.MadeFor γ l n → ∃ g, gate[γ]? = some g ∧ g.locker = l ∧ g.name = n)
    (hself : ∃ g, gate[γ]? = some g ∧ g.locker = locker ∧ g.name = name)
    (hgates : ∀ l n, gates l n = if l = locker ∧ n = name then some γ else s.gates l n)
    (hbefore : ∀ γ', s.gates locker name = some γ' → γ' = γ)
    (hcounted : ∀ a : Attempt, (∀ γ', a.uses γ' = (γ' == γ)) →
      References.Counted Gate.w Attempt.uses gate (s.attempts ++ [a])) :
    System.Gated opt { s with gates := gates, gate := gate, attempts := s.attempts ++
      [{ val := s.attempts.length, locker, name, kind, gate := γ }] } where
  attempts := forall_mem_append.mpr ⟨h.attempts,
    forall_mem_singleton.mpr ⟨counted_new _ _ _ _ _, agreed_new _ _ _ _ _⟩⟩
  made := forall_mem_append.mpr
    ⟨fun a ha => hold (h.made a ha), forall_mem_singleton.mpr hself⟩
  map := by
    intro l n γ' (hγ : gates l n = some γ')
    rw [hgates] at hγ
    split at hγ
    next hc =>
      rw [hc.1, hc.2, ← some.inj hγ]
      exact hself
    · exact hold (h.map l n γ' hγ)
  counted := hcounted _ (uses_new _ _ _ _ _)
  registered := by
    refine forall_mem_append.mpr ⟨?_, forall_mem_singleton.mpr fun _ => ?_⟩
    · intro a ha hleft
      have hreg := h.registered a ha hleft
      show gates a.locker a.name = some a.gate
      rw [hgates]
      split
      next hc => rw [hbefore a.gate (by rw [← hc.1, ← hc.2, hreg])]
      · exact hreg
    · exact (hgates locker name).trans (if_pos ⟨rfl, rfl⟩)

theorem Gated.start (locker : Nat) (name : Bytes) (kind : Kind)
    (hstep : s.step opt (.start locker name kind) = some s') : s'.Gated opt := by
  rw [← some.inj hstep]
  unfold System.getgate
  cases hgates : s.gates locker name with
  | some γ =>
    refine Gated.join h kind (fun hmade => madeFor_addW hmade γ 1)
      (madeFor_addW (h.map _ _ γ hgates) γ 1)
      (fun l n => ?_) (fun γ' hγ => some.inj (hγ.symm.trans hgates))
      fun a ha => h.counted.take (fun _ => rfl) ha
    show s.gates l n = _
    split
    next hc => rw [hc.1, hc.2, hgates]
    · rfl
  | none =>
    refine Gated.join h kind ?_ ⟨_, getElem?_concat_length, rfl, rfl⟩ (fun _ _ => rfl)
      (fun γ' hγ => nomatch hgates.symm.trans hγ) fun a ha => h.counted.make rfl ha ?_
    · rintro γ l n ⟨g, hg, hmade⟩
      exact ⟨g, (History.getElem?_snoc_iff ..).mpr (.inl hg), hmade⟩
    · intro a ha
      obtain ⟨g, hg, -⟩ := h.made a ha
      have hlt := (List.getElem?_eq_some_iff.mp hg).1
      unfold Attempt.uses
      rw [beq_false_of_ne (Nat.ne_of_gt hlt), Bool.and_false]

theorem Gated.act {t : Nat} (hin : s.InTime opt (.act t x))
    (hstep : s.step opt (.act t x) = some s') : s'.Gated opt := by
  obtain ⟨a, a', e, hat, hm, rfl⟩ := step_act hstep
  have hmem := mem_of_getElem? hat
  obtain ⟨hcounted, hagreed⟩ := h.attempts a hmem
  have hattempts := Threads.forall_mem_set (i := t) h.attempts
    ⟨hcounted.moves hm, hagreed.moves hcounted (hin a hat) hm⟩
  obtain ⟨-, hlocker, hname, -, hgate⟩ := hm.frame
  have hmade := Threads.forall_mem_set (i := t) h.made
    (show s.MadeFor a'.gate a'.locker a'.name by
      rw [hgate, hlocker, hname]
      exact h.made a hmem)
  rcases hm.left_cases with ⟨hkeep, hleft⟩ | ⟨hdrop, hleft, hgive⟩
  · have happly : s.dropGate a e.drop = s := by
      rw [hkeep]
      rfl
    unfold System.apply
    rw [happly]
    refine ⟨hattempts, hmade, h.map, h.counted.keep hat (uses_of_left_eq hgate hleft), ?_⟩
    apply Threads.forall_mem_set h.registered
    rw [hleft, hlocker, hname, hgate]
    exact h.registered a hmem
  · have hfirst := hagreed.left_eq_false hgive
    have hcount : References.Counted Gate.w Attempt.uses (s.addW a.gate (-1))
        (s.attempts.set t a') := by
      apply h.counted.give hat (fun _ => rfl)
      · intro γ
        unfold Attempt.uses
        rw [hfirst]
        rfl
      · intro γ
        unfold Attempt.uses
        rw [hleft]
        rfl
    have hgates : ∀ l n γ, (s.dropGate a e.drop).gates l n = some γ → s.gates l n = some γ := by
      intro l n γ hγ
      rcases dropGate_gates (s := s) (a := a) e.drop with hsame | ⟨-, hremoved⟩
      · rw [← hsame]
        exact hγ
      · rw [hremoved] at hγ
        change (if l = a.locker ∧ n = a.name then none else s.gates l n) = some γ at hγ
        split at hγ
        · cases hγ
        · exact hγ
    have hmade' : ∀ {γ l n}, s.MadeFor γ l n →
        ∃ g, (s.dropGate a e.drop).gate[γ]? = some g ∧ g.locker = l ∧ g.name = n := by
      rw [dropGate_gate hdrop]
      exact fun hmade => madeFor_addW hmade a.gate (-1)
    refine ⟨hattempts, fun b hb => hmade' (hmade b hb),
      fun l n γ hγ => hmade' (h.map l n γ (hgates l n γ hγ)), ?_, ?_⟩
    · change References.Counted _ _ (s.dropGate a e.drop).gate _
      rw [dropGate_gate hdrop]
      exact hcount
    · intro b hb hbleft
      have hreg : s.gates b.locker b.name = some b.gate := by
        rcases mem_or_eq_of_mem_set hb with hold | rfl
        · exact h.registered b hold hbleft
        · rw [hleft] at hbleft
          cases hbleft
      change (s.dropGate a e.drop).gates b.locker b.name = _
      rcases dropGate_gates (s := s) (a := a) e.drop with hsame | ⟨⟨g, hg, hw⟩, hremoved⟩
      · rw [hsame]
        exact hreg
      · rw [hremoved]
        change (if b.locker = a.locker ∧ b.name = a.name then none else s.gates b.locker b.name) = _
        rw [if_neg, hreg]
        rintro ⟨hl, hn⟩
        -- somebody else uses the gate, so its count is not zero
        have hsame : b.gate = a.gate := by
          rw [hl, hn, h.registered a hmem hfirst] at hreg
          exact (some.inj hreg).symm
        have hpos : 0 < (s.attempts.set t a').countP (·.uses a.gate) := by
          refine countP_pos_iff.mpr ⟨b, hb, ?_⟩
          unfold Attempt.uses
          rw [hbleft, hsame, beq_self_eq_true]
          rfl
        have hzero := hcount a.gate g hg
        omega

theorem Gated.step {act : LockAct} (hin : s.InTime opt act) (hstep : s.step opt act = some s') :
    s'.Gated opt := by
  cases act with
  | start locker name kind => exact Gated.start h locker name kind hstep
  | act t x => exact Gated.act h hin hstep
  | runLate k =>
    unfold System.step at hstep
    dsimp only at hstep
    split at hstep
    · cases hstep
    · rw [← some.inj hstep]
      exact { h with }
  | expire key =>
    rw [← some.inj hstep]
    exact { h with }

omit h

theorem gated_init : System.Gated opt {} := by
  refine ⟨forall_mem_nil _, forall_mem_nil _, ?_, ?_, forall_mem_nil _⟩
  · intro l n γ hγ
    cases hγ
  · intro γ g hg
    cases hg

/-- In every run in which no timer stops a call with a majority and no last monitor looks before the
last failure is counted, every gate counts its users, and it is found under its name while there are
any. -/
theorem gates_count_users (opt : LockOption) (acts : List LockAct) (s : System)
    (hin : Machine.Guarded (System.step opt) (System.InTime opt) {} acts)
    (hrun : run (System.step opt) {} acts = some s) (γ : Nat) (g : Gate)
    (hg : s.gate[γ]? = some g) :
    g.w = s.users γ ∧ 0 ≤ g.w ∧ (0 < s.users γ → s.gates g.locker g.name = some γ) := by
  have h : s.Gated opt := run_invariant_guarded (System.step opt)
    (fun _ _ _ hs hin hstep => Gated.step hs hin hstep) gated_init hin hrun
  have hw := h.counted γ g hg
  refine ⟨hw, ?_, ?_⟩
  · rw [hw]
    exact Int.natCast_nonneg _
  · intro hpos
    obtain ⟨a, ha, huses⟩ := countP_pos_iff.mp hpos
    have huse := Bool.and_eq_true_iff.mp huses
    have hgate : γ = a.gate := eq_of_beq huse.2
    have hleft : a.left = false := Bool.not_eq_true' a.left |>.mp huse.1
    obtain ⟨g', hg', hlocker, hname⟩ := h.made a ha
    rw [← hgate, hg] at hg'
    rw [some.inj hg', hlocker, hname, hgate]
    exact h.registered a ha hleft

end System

def LockAct.winning (t : Nat) : List LockAct :=
  [.act t (.acquire .replied), .act t .count, .act t .endLoop]

def LockAct.releasing (t : Nat) : List LockAct :=
  [.act t (.ctxDone 0), .act t (.delkey 0 .replied), .act t (.release 0), .act t (.cancelAt 0),
    .act t .load, .act t .giveBack, .act t .closeDone]

theorem gates_count_users_waiting :
    ∃ s, run (System.step ⟨lit "p", 1, by decide⟩) {}
        ([.start 0 (lit "n") .waiting, .start 0 (lit "n") .once] ++ LockAct.winning 0 ++
          [.act 0 .stop, .act 0 .cancel] ++ LockAct.releasing 0) = some s ∧
      s.gate[0]? = some ⟨0, lit "n", 1⟩ ∧ (1 : Int) = s.users 0 ∧ s.gates 0 (lit "n") = some 0 := by
  obtain ⟨s, hrun, hg, hpos⟩ := exists_run (System.step ⟨lit "p", 1, by decide⟩)
    (P := fun s => s.gate[0]? = some ⟨0, lit "n", 1⟩ ∧ 0 < s.users 0) {}
    ([.start 0 (lit "n") .waiting, .start 0 (lit "n") .once] ++ LockAct.winning 0 ++
      [.act 0 .stop, .act 0 .cancel] ++ LockAct.releasing 0) (by decide +kernel)
  obtain ⟨hw, -, hreg⟩ := gates_count_users _ _ s (by decide +kernel) hrun 0 _ hg
  exact ⟨s, hrun, hg, hw, hreg hpos⟩

/-- The timer fires after the majority was acquired: the last monitor and the call both give the
gate up, and it is removed while the other call uses it. -/
theorem gate_removed_under_user :
    ∃ s, run (System.step ⟨lit "p", 1, by decide⟩) {}
        ([.start 0 (lit "n") .once, .start 0 (lit "n") .waiting] ++ LockAct.winning 0 ++
          [.act 0 .fire, .act 0 .stop] ++ LockAct.releasing 0 ++
          [.act 0 .awaitDone, .act 0 .removegate]) = some s ∧
      s.gate[0]? = some ⟨0, lit "n", 0⟩ ∧ s.users 0 = 1 ∧ s.gates 0 (lit "n") = none := by
  apply exists_run
  decide +kernel

end Rueidis.Lock
