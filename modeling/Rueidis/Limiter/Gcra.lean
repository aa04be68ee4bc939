import Rueidis.Library.Machine
import Rueidis.Library.VirtualScheduling
import Mathlib.Algebra.BigOperators.Ring.Finset
import Mathlib.Data.Rat.Floor

/-!
# The GCRA rate limiter

The two scripts and the calls around them, with exact rational numbers in place of Lua's.  The server
keeps one arrival time for an identifier, under a key that expires when the arrival time is past.
-/

namespace Rueidis.Limiter

open Machine

/-! ## The scripts -/

variable {tat now cost : ℚ} {clock : ℕ}

def time (clock : ℕ) : ℕ × ℕ := (clock / 1000000, clock % 1000000)

def jan_1_2017 : ℚ := 1483228800

def scriptNow (clock : ℕ) : ℚ := ((time clock).1 - jan_1_2017) + (time clock).2 / 1000000

structure ScriptReply where
  allowed : ℤ
  remaining : ℤ
  retryAfter : ℚ
  resetAfter : ℚ
deriving DecidableEq, Repr

structure SetEX where
  tat : ℚ
  seconds : ℤ
deriving DecidableEq, Repr

def toReplyInteger (x : ℚ) : ℤ := x.num.tdiv x.den

def floorRemaining (remaining : ℚ) : ℤ := ⌊remaining + 1 / 1000000000⌋

def gcraAllowNScript (burst rate period cost : ℚ) (clock : ℕ) (stored : Option ℚ) :
    ScriptReply × Option SetEX :=
  let emission_interval := period / rate
  let increment := emission_interval * cost
  let burst_offset := emission_interval * burst
  let now := scriptNow clock
  let tat := max (stored.getD now) now
  let diff := burst_offset - increment - (tat - now)
  if diff < 0 then (⟨0, 0, diff * -1, tat - now⟩, none)
  else
    let remaining := diff / emission_interval
    let new_tat := tat + increment
    let reset_after := new_tat - now
    (⟨toReplyInteger cost, floorRemaining remaining, -1, reset_after⟩,
      if 0 < cost ∧ 0 < reset_after then some ⟨new_tat, ⌈reset_after⌉⟩ else none)

def gcraAllowAtMostScript (burst rate period cost : ℚ) (clock : ℕ) (stored : Option ℚ) :
    ScriptReply × Option SetEX :=
  let emission_interval := period / rate
  let burst_offset := emission_interval * burst
  let now := scriptNow clock
  let tat := max (stored.getD now) now
  let diff := burst_offset - (tat - now)
  let remaining := diff / emission_interval
  if remaining < 1 then (⟨0, 0, emission_interval - diff, tat - now⟩, none)
  else
    let (cost, remaining) := if remaining < cost then (remaining, 0) else (cost, remaining - cost)
    let increment := emission_interval * cost
    let new_tat := tat + increment
    let reset_after := new_tat - now
    (⟨toReplyInteger cost, floorRemaining remaining, -1, reset_after⟩,
      if 0 < cost ∧ 0 < reset_after then some ⟨new_tat, ⌈reset_after⌉⟩ else none)

/-! ## The calls -/

structure Result where
  allowed : Bool
  remaining : ℤ
  resetAtMs : ℤ
  retryAfter : ℤ
  resetAfter : ℤ
  granted : ℤ
deriving DecidableEq, Repr

/-- `DurFromSecString` of a number that was sent as text. -/
def durFromSecString (f : ℚ) : ℤ :=
  if f = -1 then -1 else if f < 0 then 0 else toReplyInteger (f * 1000000000)

/-- What both calls make of the reply; `timeNow` is the clock of the client in nanoseconds. -/
def resultOf (n : ℕ) (timeNow : ℤ) (reply : ScriptReply) : Result :=
  let retryAfter := durFromSecString reply.retryAfter
  let resetAfter := durFromSecString reply.resetAfter
  { allowed :=
      if n = 0 then decide (0 < reply.remaining) && decide (retryAfter = -1)
      else decide (0 < reply.allowed)
    remaining := reply.remaining
    resetAtMs := if 0 < resetAfter then (timeNow + resetAfter) / 1000000 else 0
    retryAfter := retryAfter
    resetAfter := resetAfter
    granted := reply.allowed }

/-- The limits of an identifier, as `resolveOptions` returns them; the period is in seconds. -/
structure Limits where
  burst : ℤ
  rate : ℤ
  period : ℚ
  one_le_burst : 1 ≤ burst
  one_le_rate : 1 ≤ rate
  period_pos : 0 < period

variable {lim : Limits}

inductive Method where
  | allowN
  | allowAtMost
deriving DecidableEq, Repr

def Limits.script (lim : Limits) (method : Method) (n : ℕ) (clock : ℕ) (stored : Option ℚ) :
    ScriptReply × Option SetEX :=
  match method with
  | .allowN => gcraAllowNScript lim.burst lim.rate lim.period n clock stored
  | .allowAtMost => gcraAllowAtMostScript lim.burst lim.rate lim.period n clock stored

/-! ## The server -/

structure Stored where
  tat : ℚ
  notBefore : ℕ
deriving DecidableEq, Repr

/-- `log` has the calls with the time at which their script ran; `none` is a call that got an error
in place of the reply. -/
structure State where
  clock : ℕ
  key : Option Stored := none
  log : List (ℕ × Option Result) := []
deriving DecidableEq, Repr

variable {s : State}

inductive Event where
  | tick (micros : ℕ)
  | expire
  | call (method : Method) (n : ℕ) (timeNow : ℤ) (answered : Bool)
deriving DecidableEq, Repr

variable {events : List Event}

def SetEX.store (set : SetEX) (clock : ℕ) : Stored :=
  ⟨set.tat, clock + set.seconds.toNat * 1000000⟩

def step (lim : Limits) (s : State) : Event → Option State
  | .tick micros => some { s with clock := s.clock + micros }
  | .expire =>
    match s.key with
    | none => none
    | some k => if k.notBefore ≤ s.clock then some { s with key := none } else none
  | .call method n timeNow answered =>
    let (reply, set) := lim.script method n s.clock (s.key.map (·.tat))
    some { s with
      key := match set with
        | none => s.key
        | some set => some (set.store s.clock)
      log := s.log ++ [(s.clock, if answered then some (resultOf n timeNow reply) else none)] }

def granted (r : Option Result) : ℤ :=
  match r with
  | none => 0
  | some r => r.granted

def seconds (clock : ℕ) : ℚ := clock / 1000000

def grantedBetween (log : List (ℕ × Option Result)) (t₁ t₂ : ℚ) : ℤ :=
  ((log.filter fun e => decide (t₁ ≤ seconds e.1) && decide (seconds e.1 ≤ t₂)).map
    (granted ·.2)).sum

/-! ## What the scripts do -/

theorem scriptNow_eq (clock : ℕ) : scriptNow clock = seconds clock - jan_1_2017 := by
  have hdiv : (clock : ℚ) = 1000000 * (clock / 1000000 : ℕ) + (clock % 1000000 : ℕ) := by
    exact_mod_cast (Nat.div_add_mod clock 1000000).symm
  unfold scriptNow time seconds
  rw [hdiv]
  ring

theorem toReplyInteger_eq_floor {x : ℚ} (hx : 0 ≤ x) : toReplyInteger x = ⌊x⌋ := by
  rw [toReplyInteger, Int.tdiv_eq_ediv_of_nonneg (Rat.num_nonneg.mpr hx), ← Rat.floor_def']

theorem toReplyInteger_le {x : ℚ} (hx : 0 ≤ x) : (toReplyInteger x : ℚ) ≤ x := by
  rw [toReplyInteger_eq_floor hx]
  exact Int.floor_le x

def Limits.interval (lim : Limits) : ℚ := lim.period / lim.rate

theorem Limits.interval_pos (lim : Limits) : 0 < lim.interval := by
  have hrate : (0 : ℚ) < lim.rate := by exact_mod_cast lim.one_le_rate
  exact div_pos lim.period_pos hrate

/-- A script that grants something moves the arrival time on by at least as much, and keeps it in
reach of the burst; a script that does not leaves the key alone. -/
inductive Effect (lim : Limits) (tat now : ℚ) : ScriptReply → Option SetEX → Prop
  | refuse {reply : ScriptReply} (hzero : reply.allowed = 0) : Effect lim tat now reply none
  | grant {reply : ScriptReply} (cost : ℚ) (hcost : 0 ≤ cost) (hle : reply.allowed ≤ cost)
      (hroom : max tat now + lim.interval * cost ≤ now + lim.interval * lim.burst) :
      Effect lim tat now reply
        (some ⟨max tat now + lim.interval * cost, ⌈max tat now + lim.interval * cost - now⌉⟩)

section Scripts

variable (lim : Limits) (n clock : ℕ) (stored : Option ℚ)

theorem effect_of_cost {lim : Limits} {reply : ScriptReply} (hcost : 0 ≤ cost)
    (hallowed : reply.allowed = toReplyInteger cost)
    (hroom : max tat now + lim.interval * cost ≤ now + lim.interval * lim.burst) :
    Effect lim tat now reply
      (if 0 < cost ∧ 0 < max tat now + lim.interval * cost - now then
        some ⟨max tat now + lim.interval * cost, ⌈max tat now + lim.interval * cost - now⌉⟩
      else none) := by
  rcases hcost.eq_or_lt with hzero | hpos
  · rw [if_neg (by rw [← hzero]; simp)]
    apply Effect.refuse
    rw [hallowed, ← hzero]
    rfl
  · have hinc : 0 < lim.interval * cost := mul_pos lim.interval_pos hpos
    have hreset : 0 < max tat now + lim.interval * cost - now := by
      linarith [le_max_right tat now]
    rw [if_pos ⟨hpos, hreset⟩]
    apply Effect.grant cost hcost _ hroom
    rw [hallowed]
    exact toReplyInteger_le hcost

theorem allowN_effect :
    Effect lim (stored.getD (scriptNow clock)) (scriptNow clock)
      (lim.script .allowN n clock stored).1 (lim.script .allowN n clock stored).2 := by
  change Effect lim _ _ (gcraAllowNScript lim.burst lim.rate lim.period n clock stored).1
    (gcraAllowNScript lim.burst lim.rate lim.period n clock stored).2
  unfold gcraAllowNScript
  dsimp only
  split
  · exact Effect.refuse rfl
  · rename_i hdiff
    apply effect_of_cost (Nat.cast_nonneg n) rfl
    unfold Limits.interval
    linarith

theorem allowAtMost_effect :
    Effect lim (stored.getD (scriptNow clock)) (scriptNow clock)
      (lim.script .allowAtMost n clock stored).1 (lim.script .allowAtMost n clock stored).2 := by
  change Effect lim _ _ (gcraAllowAtMostScript lim.burst lim.rate lim.period n clock stored).1
    (gcraAllowAtMostScript lim.burst lim.rate lim.period n clock stored).2
  unfold gcraAllowAtMostScript
  dsimp only
  generalize scriptNow clock = now
  generalize stored.getD now = tat
  split
  · exact Effect.refuse rfl
  · rename_i hone
    have hpos := lim.interval_pos
    -- all that remains takes the arrival time to the end of the burst
    have hremaining : lim.interval *
        ((lim.period / lim.rate * lim.burst - (max tat now - now)) / (lim.period / lim.rate)) =
        lim.interval * lim.burst - (max tat now - now) := mul_div_cancel₀ _ hpos.ne'
    generalize (lim.period / lim.rate * lim.burst - (max tat now - now)) /
      (lim.period / lim.rate) = remaining at *
    by_cases hless : remaining < n
    · rw [if_pos hless]
      apply effect_of_cost (by linarith) rfl
      rw [hremaining]
      linarith
    · rw [if_neg hless]
      apply effect_of_cost (Nat.cast_nonneg n) rfl
      have hle : lim.interval * n ≤ lim.interval * remaining :=
        mul_le_mul_of_nonneg_left (not_lt.mp hless) hpos.le
      linarith

theorem script_effect (method : Method) :
    Effect lim (stored.getD (scriptNow clock)) (scriptNow clock)
      (lim.script method n clock stored).1 (lim.script method n clock stored).2 := by
  cases method with
  | allowN => exact allowN_effect lim n clock stored
  | allowAtMost => exact allowAtMost_effect lim n clock stored

end Scripts

/-! ## Runs -/

open VirtualScheduling (Grant Paced)

def grantOf (e : ℕ × Option Result) : Grant ℚ := ⟨scriptNow e.1, granted e.2⟩

def Holds (key : Option Stored) (tat now : ℚ) : Prop :=
  match key with
  | none => tat ≤ now
  | some k => k.tat = tat ∧ tat ≤ scriptNow k.notBefore

structure Inv (lim : Limits) (s : State) (tat : ℚ) : Prop where
  paced : Paced lim.interval lim.burst (s.log.map grantOf) tat (scriptNow s.clock)
  holds : Holds s.key tat (scriptNow s.clock)

theorem scriptNow_mono {c d : ℕ} (h : c ≤ d) : scriptNow c ≤ scriptNow d := by
  have hcast : (c : ℚ) ≤ d := by exact_mod_cast h
  rw [scriptNow_eq, scriptNow_eq]
  unfold seconds
  linarith

theorem tat_le_notBefore (set : SetEX) (clock : ℕ)
    (h : set.seconds = ⌈set.tat - scriptNow clock⌉) :
    set.tat ≤ scriptNow (set.store clock).notBefore := by
  have hceil : set.tat - scriptNow clock ≤ set.seconds := by
    rw [h]
    exact Int.le_ceil _
  have htoNat : (set.seconds : ℚ) ≤ (set.seconds.toNat : ℚ) := by
    exact_mod_cast Int.self_le_toNat set.seconds
  have hnow : scriptNow (set.store clock).notBefore = scriptNow clock + set.seconds.toNat := by
    rw [scriptNow_eq, scriptNow_eq]
    unfold seconds SetEX.store
    push_cast
    ring
  linarith

theorem Holds.max_eq {key : Option Stored} (h : Holds key tat now) :
    max ((key.map (·.tat)).getD now) now = max tat now := by
  cases key with
  | none => exact (max_self now).trans (max_eq_right h).symm
  | some k =>
    change max k.tat now = max tat now
    rw [h.1]

theorem granted_answer (n : ℕ) (timeNow : ℤ) (answered : Bool) (reply : ScriptReply) :
    granted (if answered then some (resultOf n timeNow reply) else none) =
      if answered then reply.allowed else 0 := by
  cases answered <;> rfl

theorem step_inv {t : State} {e : Event} (hinv : Inv lim s tat) (hstep : step lim s e = some t) :
    ∃ tat', Inv lim t tat' := by
  cases e with
  | tick micros =>
    rw [← Option.some.inj hstep]
    have hle : scriptNow s.clock ≤ scriptNow (s.clock + micros) :=
      scriptNow_mono (Nat.le_add_right s.clock micros)
    refine ⟨tat, hinv.paced.later hle, ?_⟩
    have hholds := hinv.holds
    unfold Holds at hholds ⊢
    cases hkey : s.key with
    | none =>
      rw [hkey] at hholds
      exact hholds.trans hle
    | some k =>
      rw [hkey] at hholds
      exact hholds
  | expire =>
    unfold step at hstep
    cases hkey : s.key with
    | none => simp [hkey] at hstep
    | some k =>
      have hholds := hinv.holds
      rw [hkey] at hstep hholds
      dsimp only at hstep
      split at hstep
      · rename_i hdue
        rw [← Option.some.inj hstep]
        exact ⟨tat, hinv.paced, hholds.2.trans (scriptNow_mono hdue)⟩
      · cases hstep
  | call method n timeNow answered =>
    unfold step at hstep
    dsimp only at hstep
    rw [← Option.some.inj hstep]
    have heffect := script_effect lim n s.clock (s.key.map (·.tat)) method
    generalize lim.script method n s.clock (s.key.map (·.tat)) = out at heffect
    obtain ⟨reply, set⟩ := out
    have hlog : ∀ r, (s.log ++ [(s.clock, r)]).map grantOf =
        s.log.map grantOf ++ [⟨scriptNow s.clock, granted r⟩] := by
      intro r
      rw [List.map_append]
      rfl
    cases heffect with
    | refuse hzero =>
      refine ⟨tat, ?_, hinv.holds⟩
      rw [hlog, granted_answer, hzero, ite_self]
      exact hinv.paced.refuse
    | grant cost hcost hle hroom =>
      rw [hinv.holds.max_eq] at hroom ⊢
      refine ⟨max tat (scriptNow s.clock) + lim.interval * cost, ?_, rfl,
        tat_le_notBefore _ s.clock rfl⟩
      rw [hlog, granted_answer]
      apply hinv.paced.grant lim.interval_pos.le hcost _ hroom
      cases answered with
      | false => exact_mod_cast hcost
      | true => exact hle

def Scheduled (lim : Limits) (s : State) : Prop := ∃ tat, Inv lim s tat

theorem run_inv (hrun : run (step lim) { clock := clock } events = some s) :
    Scheduled lim s := by
  have hburst : (0 : ℚ) ≤ lim.burst := by exact_mod_cast zero_le_one.trans lim.one_le_burst
  refine run_invariant (step lim) ?_ ?_ hrun
  · rintro s e t ⟨tat, hinv⟩ hstep
    exact step_inv hinv hstep
  · exact ⟨scriptNow clock, Paced.nil lim.interval_pos.le hburst _ _, le_refl _⟩

theorem grantedBetween_eq (log : List (ℕ × Option Result)) (t₁ t₂ : ℚ) :
    (grantedBetween log t₁ t₂ : ℚ) =
      VirtualScheduling.total (log.map grantOf) (t₁ - jan_1_2017) (t₂ - jan_1_2017) := by
  unfold grantedBetween VirtualScheduling.total
  rw [List.filter_map, List.map_map, Int.cast_list_sum, List.map_map]
  congr 2
  apply List.filter_congr
  intro e _
  simp only [Function.comp_apply, grantOf, scriptNow_eq, sub_le_sub_iff_right]

/-- In every interval, of every run, at most the burst and what the rate makes of the interval. -/
theorem gcra_rate_bound (lim : Limits)
    (hrun : run (step lim) { clock := clock } events = some s) {t₁ t₂ : ℚ} (ht : t₁ ≤ t₂) :
    grantedBetween s.log t₁ t₂ ≤ lim.burst + lim.rate * (t₂ - t₁) / lim.period := by
  obtain ⟨tat, hinv⟩ := run_inv hrun
  rw [grantedBetween_eq]
  have hle := hinv.paced.total_le lim.interval_pos (sub_le_sub_right ht jan_1_2017)
  apply hle.trans
  apply Eq.le
  have hrate : (lim.rate : ℚ) ≠ 0 := by
    have hpos : (0 : ℚ) < lim.rate := by exact_mod_cast lim.one_le_rate
    exact hpos.ne'
  have hperiod := lim.period_pos.ne'
  unfold Limits.interval
  field_simp
  ring

def twoAtOnce : Limits where
  burst := 2
  rate := 1
  period := 1
  one_le_burst := by decide
  one_le_rate := by decide
  period_pos := zero_lt_one

theorem gcra_rate_bound_half_second :
    ∃ s, run (step twoAtOnce) { clock := 1483228800000000 }
        [.call .allowN 1 0 true, .tick 500000, .call .allowAtMost 9 0 true] = some s ∧
      grantedBetween s.log 1483228800 (1483228800 + 1 / 2) = 2 ∧
      ((2 : ℤ) : ℚ) ≤ (2 : ℤ) + (1 : ℤ) * (1483228800 + 1 / 2 - 1483228800) / 1 := by
  have hlog : (run (step twoAtOnce) { clock := 1483228800000000 }
      [.call .allowN 1 0 true, .tick 500000, .call .allowAtMost 9 0 true]).map
      (fun s => grantedBetween s.log 1483228800 (1483228800 + 1 / 2)) = some 2 := by
    decide +kernel
  obtain ⟨s, hrun, hgranted⟩ := Option.map_eq_some_iff.mp hlog
  have hbound := gcra_rate_bound twoAtOnce hrun
    (show (1483228800 : ℚ) ≤ 1483228800 + 1 / 2 by norm_num)
  rw [hgranted] at hbound
  exact ⟨s, hrun, hgranted, hbound⟩

/-! ## What a partial grant costs -/

def arrival (clock : ℕ) (stored : Option ℚ) : ℚ :=
  max (stored.getD (scriptNow clock)) (scriptNow clock)

/-- What is left of the burst when a script runs: a fraction, in general. -/
def Limits.left (lim : Limits) (clock : ℕ) (stored : Option ℚ) : ℚ :=
  (lim.interval * lim.burst - (arrival clock stored - scriptNow clock)) / lim.interval

def Limits.storedAfter (lim : Limits) (n clock : ℕ) (stored : Option ℚ) : Option ℚ :=
  match (lim.script .allowAtMost n clock stored).2 with
  | none => stored
  | some set => some set.tat

/-- The arrival time moves on by what the call reports as granted. -/
def Limits.ChargesGranted (lim : Limits) (n clock : ℕ) (timeNow : ℤ) (stored : Option ℚ) : Prop :=
  let granted := (resultOf n timeNow (lim.script .allowAtMost n clock stored).1).granted
  lim.storedAfter n clock stored =
    if granted = 0 then stored else some (arrival clock stored + lim.interval * granted)

section Charge

variable {lim : Limits} {n clock : ℕ} {stored : Option ℚ}

theorem storedAfter_of_left_lt (hleft : lim.left clock stored < 1) :
    lim.storedAfter n clock stored = stored ∧
      (lim.script .allowAtMost n clock stored).1.allowed = 0 := by
  have hout : lim.script .allowAtMost n clock stored = (⟨0, 0, _, _⟩, none) := if_pos hleft
  rw [Limits.storedAfter, hout]
  exact ⟨rfl, rfl⟩

/-- A grant moves the arrival time on by all that is taken; the reply drops the fraction. -/
theorem storedAfter_of_le_left (hleft : 1 ≤ lim.left clock stored)
    (hcost : cost = if lim.left clock stored < n then lim.left clock stored else n) :
    (lim.storedAfter n clock stored =
      if cost = 0 then stored else some (arrival clock stored + lim.interval * cost)) ∧
      (lim.script .allowAtMost n clock stored).1.allowed = toReplyInteger cost := by
  have hout : ∃ remaining, lim.script .allowAtMost n clock stored =
      (⟨toReplyInteger cost, floorRemaining remaining, -1,
          arrival clock stored + lim.interval * cost - scriptNow clock⟩,
        if 0 < cost ∧ 0 < arrival clock stored + lim.interval * cost - scriptNow clock then
          some ⟨arrival clock stored + lim.interval * cost,
            ⌈arrival clock stored + lim.interval * cost - scriptNow clock⌉⟩
        else none) := by
    have hfold : (lim.period / lim.rate * lim.burst - (max (stored.getD (scriptNow clock))
        (scriptNow clock) - scriptNow clock)) / (lim.period / lim.rate) = lim.left clock stored := rfl
    show ∃ _, gcraAllowAtMostScript lim.burst lim.rate lim.period n clock stored = _
    unfold gcraAllowAtMostScript
    dsimp only
    rw [hfold, if_neg (not_lt.mpr hleft), hcost]
    split
    · exact ⟨0, rfl⟩
    · exact ⟨lim.left clock stored - n, rfl⟩
  obtain ⟨remaining, hout⟩ := hout
  rw [Limits.storedAfter, hout]
  refine ⟨?_, rfl⟩
  have hnonneg : 0 ≤ cost := by
    rw [hcost]
    split
    · linarith
    · exact Nat.cast_nonneg n
  rcases hnonneg.eq_or_lt with hzero | hpos
  · simp [← hzero]
  · have hinc : 0 < lim.interval * cost := mul_pos lim.interval_pos hpos
    have hreset : 0 < arrival clock stored + lim.interval * cost - scriptNow clock := by
      linarith [show scriptNow clock ≤ arrival clock stored from le_max_right _ _]
    simp [hpos, hreset, hpos.ne']

end Charge

theorem toReplyInteger_natCast (n : ℕ) : toReplyInteger n = n := by
  simp [toReplyInteger]

/-- `AllowAtMost` charges what it reports exactly when it can grant all that is asked for, or
nothing, or what is left is a whole number. -/
theorem chargesGranted_iff (lim : Limits) (n clock : ℕ) (timeNow : ℤ) (stored : Option ℚ) :
    lim.ChargesGranted n clock timeNow stored ↔
      (1 ≤ lim.left clock stored → lim.left clock stored < n →
        lim.left clock stored = ⌊lim.left clock stored⌋) := by
  have hgranted : (resultOf n timeNow (lim.script .allowAtMost n clock stored).1).granted =
      (lim.script .allowAtMost n clock stored).1.allowed := rfl
  unfold Limits.ChargesGranted
  dsimp only
  rw [hgranted]
  by_cases hleft : 1 ≤ lim.left clock stored
  · by_cases hless : lim.left clock stored < n
    · obtain ⟨hstored, hallowed⟩ := storedAfter_of_le_left hleft (if_pos hless).symm
      have hfloor : 1 ≤ ⌊lim.left clock stored⌋ := Int.le_floor.mpr (by exact_mod_cast hleft)
      rw [hstored, hallowed, toReplyInteger_eq_floor (by linarith), if_neg (by linarith),
        if_neg (by omega), Option.some.injEq, add_right_inj, mul_right_inj' lim.interval_pos.ne']
      exact ⟨fun h _ _ => h, fun h => h hleft hless⟩
    · obtain ⟨hstored, hallowed⟩ := storedAfter_of_le_left hleft (if_neg hless).symm
      rw [hstored, hallowed, toReplyInteger_natCast]
      exact iff_of_true (by simp) fun _ h => absurd h hless
  · obtain ⟨hstored, hallowed⟩ := storedAfter_of_left_lt (n := n) (not_le.mp hleft)
    rw [hstored, hallowed]
    exact iff_of_true rfl fun h => absurd h hleft

/-- One and a half tokens are left half a second after the first: all of it is taken and one is
reported. -/
theorem fraction_charged :
    twoAtOnce.script .allowAtMost 9 1483228800500000 (some 1) =
      (⟨1, 0, -1, 2⟩, some ⟨5 / 2, 2⟩) ∧
      ¬ twoAtOnce.ChargesGranted 9 1483228800500000 0 (some 1) := by
  unfold Limits.ChargesGranted
  decide +kernel

end Rueidis.Limiter
