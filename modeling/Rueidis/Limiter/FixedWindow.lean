import Rueidis.Library.Double
import Rueidis.Limiter.Gcra

/-!
# The fixed window rate limiter

The two scripts and the calls around them, for the two keys of one identifier.  A number of a script
is a double, so what `tonumber`, the reply of a command and an operation give is rounded; the server
keeps the counter as an exact 64-bit integer.
-/

namespace Rueidis.Limiter.FixedWindow

open Double List Option Machine

/-! ## The server -/

variable {clock amount next : Int}

/-- What the server does with a number of a script. -/
structure Redis where
  /-- The integer that is printed when the number is an argument of a command; `none` when it is
      printed with an exponent. -/
  argument : Int → Option Int
  toLongLong : Int → Int
  argument_eq : ∀ x y, argument x = some y → y = x
  toLongLong_eq : ∀ x, -9223372036854775808 ≤ x → x < 9223372036854775808 → toLongLong x = x

structure Key where
  value : Int
  pxat : Option Int
deriving DecidableEq, Repr

structure Server where
  clock : Int
  counter : Option Key := none
  expiresAt : Option Key := none
deriving DecidableEq, Repr

variable {s' : Server}

def Key.live (clock : Int) (k : Key) : Bool :=
  match k.pxat with
  | none => true
  | some t => decide (clock ≤ t)

def get (clock : Int) (k : Option Key) : Option Int := (k.filter (·.live clock)).map (·.value)

def Server.count (s : Server) : Int := (get s.clock s.counter).getD 0

def Server.expires (s : Server) : Option Int := get s.clock s.expiresAt

/-- The time a key keeps when it is written; a key that is gone is made anew, without a time. -/
def keptTime (clock : Int) (k : Option Key) : Option Int := (k.filter (·.live clock)).bind (·.pxat)

def incrby (redis : Redis) (amount : Int) (s : Server) : Option (Server × Int) :=
  match redis.argument amount with
  | none => none
  | some a =>
    let v := s.count + a
    if -9223372036854775808 ≤ v ∧ v < 9223372036854775808 then
      some ({ s with counter := some ⟨v, keptTime s.clock s.counter⟩ }, v)
    else none

/-! ## The scripts -/

structure Window where
  server : Server
  expires_at : Int
  reset : Bool
deriving DecidableEq, Repr

def resetWindow (redis : Redis) (next_expires_at : Int) (s : Server) : Option Window :=
  match redis.argument (nearest (next_expires_at + 1000)) with
  | none => none
  | some t =>
    if t ≤ 0 then none
    else
      some { server := { s with
               counter := some ⟨0, some t⟩
               expiresAt := some ⟨next_expires_at, some t⟩ }
             expires_at := next_expires_at
             reset := true }

def currentWindow (redis : Redis) (next_expires_at current_time : Int) (s : Server) :
    Option Window :=
  match s.expires with
  | none => resetWindow redis next_expires_at s
  | some expires_at =>
    if expires_at < current_time then resetWindow redis next_expires_at s
    else some ⟨s, expires_at, false⟩

/-- The server after a script, whether the script opened a window, and the reply; without a reply
the script ended in an error. -/
structure Outcome where
  server : Server
  reset : Bool
  reply : Option (Int × Int × Int)
deriving DecidableEq, Repr

def rateLimitScript (redis : Redis) (increment next now : Int) (s : Server) : Outcome :=
  let increment_amount := nearest increment
  let next_expires_at := nearest next
  let current_time := nearest now
  match currentWindow redis next_expires_at current_time s with
  | none => ⟨s, false, none⟩
  | some w =>
    match incrby redis increment_amount w.server with
    | none => ⟨w.server, w.reset, none⟩
    | some (s', current) =>
      ⟨s', w.reset, some (redis.toLongLong (nearest current), redis.toLongLong w.expires_at, 0)⟩

def rateLimitAllowAtMostScript (redis : Redis) (amount next now limit : Int) (s : Server) : Outcome :=
  let max_amount := nearest amount
  let next_expires_at := nearest next
  let current_time := nearest now
  let limit := nearest limit
  match currentWindow redis next_expires_at current_time s with
  | none => ⟨s, false, none⟩
  | some w =>
    let current := nearest w.server.count
    let remaining := nearest (limit - current)
    let remaining := if remaining < 0 then 0 else remaining
    if 0 < remaining ∧ 0 < max_amount then
      let granted := min max_amount remaining
      match incrby redis granted w.server with
      | none => ⟨w.server, w.reset, none⟩
      | some (s', current) =>
        ⟨s', w.reset, some (redis.toLongLong (nearest current), redis.toLongLong w.expires_at,
          redis.toLongLong granted)⟩
    else
      ⟨w.server, w.reset, some (redis.toLongLong current, redis.toLongLong w.expires_at, 0)⟩

/-! ## The calls -/

def int64 (x : Int) : Int := x.bmod 18446744073709551616

def unixMilli (ns : Int) : Int := ns / 1000000

def timeLeft (resetAt now : Int) : Int :=
  let diffMs := int64 (resetAt - unixMilli now)
  if 0 < diffMs then int64 (diffMs * 1000000) else 0

def resultOf (limit now current resetAt granted : Int) (allowed : Bool) : Result :=
  { allowed := allowed
    remaining := max (int64 (limit - current)) 0
    resetAtMs := resetAt
    retryAfter := if allowed then -1 else timeLeft resetAt now
    resetAfter := timeLeft resetAt now
    granted := granted }

structure Call where
  server : Server
  reset : Bool
  result : Option Result
deriving DecidableEq, Repr

def allowNFixedWindow (redis : Redis) (n limit window now : Int) (s : Server) : Call :=
  let o := rateLimitScript redis n (unixMilli (now + window)) (unixMilli now) s
  { server := o.server
    reset := o.reset
    result := o.reply.map fun (current, resetAt, _) =>
      let allowed := decide (current ≤ limit) && (decide (0 < n) || decide (current < limit))
      resultOf limit now current resetAt (if allowed then n else 0) allowed }

def allowAtMostFixedWindow (redis : Redis) (n limit window now : Int) (s : Server) : Call :=
  let o := rateLimitAllowAtMostScript redis n (unixMilli (now + window)) (unixMilli now) limit s
  { server := o.server
    reset := o.reset
    result := o.reply.map fun (current, resetAt, granted) =>
      let allowed := if n = 0 then decide (current < limit) else decide (0 < granted)
      resultOf limit now current resetAt granted allowed }

/-- `AllowN` and `AllowAtMost`; `Check` is `AllowN` of 0, `Allow` is `AllowN` of 1. -/
def call (redis : Redis) (method : Method) (n limit window now : Int) (s : Server) : Call :=
  if n < 0 then ⟨s, false, none⟩
  else
    match method with
    | .allowN => allowNFixedWindow redis n limit window now s
    | .allowAtMost => allowAtMostFixedWindow redis n limit window now s

/-! ## The system -/

structure Entry where
  reset : Bool
  counter : Int
  result : Option Result
deriving DecidableEq, Repr

def Entry.granted (e : Entry) : Int :=
  match e.result with
  | none => 0
  | some r => r.granted

structure State where
  server : Server
  log : List Entry := []
deriving DecidableEq, Repr

inductive Event where
  | tick (ms : Nat)
  /-- A client calls with its own clock and window; without an answer it returns an error. -/
  | call (method : Method) (n window now : Int) (answered : Bool)
deriving DecidableEq, Repr

def step (redis : Redis) (limit : Int) (s : State) : Event → Option State
  | .tick ms => some { s with server := { s.server with clock := s.server.clock + ms } }
  | .call method n window now answered =>
    let c := FixedWindow.call redis method n limit window now s.server
    some { server := c.server
           log := ⟨c.reset, c.server.count, if answered then c.result else none⟩ :: s.log }

/-! ## The two keys -/

def Paired (s : Server) : Prop :=
  ∀ k, s.expiresAt = some k → k.live s.clock = true → ∃ c, s.counter = some c ∧ c.pxat = k.pxat

def Nonneg (s : Server) : Prop := ∀ c, s.counter = some c → 0 ≤ c.value

variable {s : Server} {redis : Redis} {v limit : Int} {w : Window}

theorem count_nonneg (h : Nonneg s) : 0 ≤ s.count := by
  unfold Server.count get
  cases hc : s.counter with
  | none => exact Int.le_refl 0
  | some c =>
    cases hlive : c.live s.clock with
    | false => simp [Option.filter, hlive]
    | true =>
      simp only [Option.filter, hlive, if_true, Option.map_some, Option.getD_some]
      exact h c hc

theorem live_congr {c k : Key} (h : c.pxat = k.pxat) (clock : Int) : c.live clock = k.live clock := by
  unfold Key.live
  rw [h]

theorem live_of_le {k : Key} {t t' : Int} (h : t ≤ t') (hlive : k.live t' = true) :
    k.live t = true := by
  unfold Key.live at hlive ⊢
  split
  · rfl
  · rename_i p hp
    rw [hp] at hlive
    exact decide_eq_true (Int.le_trans h (of_decide_eq_true hlive))

theorem expires_ne_none (h : s.expires ≠ none) :
    ∃ k, s.expiresAt = some k ∧ k.live s.clock = true := by
  unfold Server.expires get at h
  cases hk : s.expiresAt with
  | none =>
    rw [hk] at h
    exact absurd rfl h
  | some k =>
    cases hlive : k.live s.clock with
    | false =>
      rw [hk] at h
      simp [hlive] at h
    | true => exact ⟨k, rfl, hlive⟩

theorem keptTime_some {c : Key} (h : c.live clock = true) : keptTime clock (some c) = c.pxat := by
  unfold keptTime
  rw [filter_some, if_pos h]
  rfl

theorem live_keptTime (clock v : Int) (k : Option Key) :
    Key.live clock ⟨v, keptTime clock k⟩ = true := by
  cases k with
  | none => rfl
  | some c =>
    cases h : c.live clock with
    | false =>
      unfold keptTime
      rw [filter_some, if_neg (by rw [h]; decide)]
      rfl
    | true =>
      rw [keptTime_some h, ← h]
      exact live_congr rfl clock

structure Incremented (s s' : Server) (amount v : Int) : Prop where
  value : v = s.count + amount
  count : s'.count = v
  paired : Paired s → Paired s'
  nonneg : Nonneg s → 0 ≤ amount → Nonneg s'

theorem incremented_write (s : Server) (amount : Int) :
    Incremented s
      { s with counter := some ⟨s.count + amount, keptTime s.clock s.counter⟩ } amount
      (s.count + amount) where
  value := rfl
  count := by
    show ((Option.filter _ _).map _).getD 0 = _
    rw [filter_some, if_pos (live_keptTime _ _ _)]
    rfl
  paired := by
    intro hp k hk hlive
    obtain ⟨c, hc, hpx⟩ := hp k hk hlive
    refine ⟨_, rfl, ?_⟩
    rw [hc, keptTime_some, hpx]
    rw [live_congr hpx]
    exact hlive
  nonneg := by
    intro hn hamount c hc
    rw [← some.inj hc]
    exact Int.add_nonneg (count_nonneg hn) hamount

theorem incremented_of_incrby (h : incrby redis amount s = some (s', v)) :
    Incremented s s' amount v := by
  unfold incrby at h
  cases harg : redis.argument amount with
  | none =>
    rw [harg] at h
    cases h
  | some a =>
    rw [harg] at h
    dsimp only at h
    rw [redis.argument_eq amount a harg] at h
    split at h
    · cases h
      exact incremented_write s amount
    · cases h

/-! ## What a script does -/

def base (s : Server) (reset : Bool) : Int := if reset then 0 else s.count

structure Opened (s : Server) (w : Window) : Prop where
  paired : Paired s → Paired w.server
  nonneg : Nonneg s → Nonneg w.server
  count : w.server.count = base s w.reset
  known : w.reset = true ∨ s.expires ≠ none

theorem opened_of_resetWindow (h : resetWindow redis next s = some w) : Opened s w := by
  unfold resetWindow at h
  split at h
  · cases h
  · split at h
    · cases h
    · rename_i t _ _
      rw [← some.inj h]
      refine ⟨?_, ?_, ?_, Or.inl rfl⟩
      · intro _ k hk _
        rw [← some.inj hk]
        exact ⟨_, rfl, rfl⟩
      · intro _ c hc
        cases hc
        exact Int.le_refl 0
      · show ((Option.filter _ _).map _).getD 0 = 0
        rw [filter_some]
        split <;> rfl

theorem opened_of_currentWindow {now : Int} (h : currentWindow redis next now s = some w) :
    Opened s w := by
  unfold currentWindow at h
  split at h
  · exact opened_of_resetWindow h
  · rename_i e he
    split at h
    · exact opened_of_resetWindow h
    · rw [← some.inj h]
      refine ⟨id, id, rfl, Or.inr ?_⟩
      rw [he]
      exact some_ne_none e

theorem Opened.count_le (h : Opened s w) (hnonneg : Nonneg s) : w.server.count ≤ s.count := by
  rw [h.count, base]
  split
  · exact count_nonneg hnonneg
  · exact Int.le_refl _

def countBound : Int := 9223372036854775296

structure Effect (limit : Int) (s : Server) (c : Call) : Prop where
  paired : Paired c.server
  nonneg : Nonneg c.server
  base_le : base s c.reset ≤ c.server.count
  known : c.server.expires ≠ none → c.reset = true ∨ s.expires ≠ none
  told : ∀ r, c.result = some r → (c.reset = true ∨ s.expires ≠ none) ∧ 0 ≤ r.granted ∧
    base s c.reset + r.granted ≤ c.server.count ∧ (0 < r.granted → c.server.count ≤ limit) ∧
    r.remaining = max (limit - c.server.count) 0

section Scripts

variable (redis : Redis) {limit : Int} (hpos : 0 < limit) (hlimit : limit < exact)

include hpos hlimit in
theorem told_of_count (hv : 0 ≤ v) (hbound : v < countBound) :
    redis.toLongLong (nearest v) = nearest v ∧ (nearest v ≤ limit → nearest v = v) ∧
      max (int64 (limit - nearest v)) 0 = max (limit - v) 0 := by
  have hnonneg := nearest_nonneg hv
  have hlt := nearest_lt hv hbound
  have hsmall : limit < 9007199254740992 := hlimit
  have hint : int64 (limit - nearest v) = limit - nearest v := by
    apply Int.bmod_eq_of_le <;> omega
  refine ⟨redis.toLongLong_eq _ (by omega) hlt, fun hle => ?_, ?_⟩
  · apply eq_of_nearest_lt hv
    exact Int.lt_of_le_of_lt hle hlimit
  · rw [hint]
    by_cases hx : v < exact
    · rw [nearest_of_lt hv hx]
    · have hbig := le_nearest (not_lt.mp hx)
      have hexact : (exact : Int) = 9007199254740992 := rfl
      omega

theorem Effect.of_window (hw : Opened s w) (hpaired : Paired s) (hnonneg : Nonneg s) :
    Effect limit s ⟨w.server, w.reset, none⟩ where
  paired := hw.paired hpaired
  nonneg := hw.nonneg hnonneg
  base_le := Int.le_of_eq hw.count.symm
  known := fun _ => hw.known
  told := fun _ h => nomatch h

theorem Effect.of_error (hpaired : Paired s) (hnonneg : Nonneg s) :
    Effect limit s ⟨s, false, none⟩ where
  paired := hpaired
  nonneg := hnonneg
  base_le := Int.le_refl _
  known := Or.inr
  told := fun _ h => nomatch h

theorem Effect.of_incrby {r : Result} (hw : Opened s w) (hpaired : Paired s) (hnonneg : Nonneg s)
    (hamount : 0 ≤ amount) (hinc : Incremented w.server s' amount v)
    (htold : 0 ≤ r.granted ∧ r.granted ≤ amount ∧ (0 < r.granted → v ≤ limit) ∧
      r.remaining = max (limit - v) 0) :
    Effect limit s ⟨s', w.reset, some r⟩ where
  paired := hinc.paired (hw.paired hpaired)
  nonneg := hinc.nonneg (hw.nonneg hnonneg) hamount
  base_le := by
    show base s w.reset ≤ s'.count
    rw [hinc.count, hinc.value, hw.count]
    omega
  known := fun _ => hw.known
  told := by
    intro r' hr
    cases hr
    dsimp only
    refine ⟨hw.known, htold.1, ?_, ?_, ?_⟩
    · rw [hinc.count, hinc.value, hw.count]
      omega
    · rw [hinc.count]
      exact htold.2.2.1
    · rw [hinc.count]
      exact htold.2.2.2

include hpos hlimit in
theorem allowN_effect {n : Int} (hn : 0 ≤ n) (window now : Int) (hpaired : Paired s)
    (hnonneg : Nonneg s) (hbound : s.count + nearest n < countBound) :
    Effect limit s (allowNFixedWindow redis n limit window now s) := by
  unfold allowNFixedWindow rateLimitScript
  dsimp only
  cases hw : currentWindow redis (nearest (unixMilli (now + window))) (nearest (unixMilli now)) s with
  | none => exact Effect.of_error hpaired hnonneg
  | some w =>
    have hopened := opened_of_currentWindow hw
    have hbefore := hopened.count_le hnonneg
    dsimp only
    cases hi : incrby redis (nearest n) w.server with
    | none => exact Effect.of_window hopened hpaired hnonneg
    | some p =>
      obtain ⟨s', v⟩ := p
      have hinc := incremented_of_incrby hi
      have hamount := nearest_nonneg hn
      have hv : 0 ≤ v := by
        rw [hinc.value]
        exact Int.add_nonneg (count_nonneg (hopened.nonneg hnonneg)) hamount
      have hbound' : v < countBound := by
        rw [hinc.value]
        omega
      obtain ⟨hlong, hexact, hremaining⟩ := told_of_count redis hpos hlimit hv hbound'
      apply Effect.of_incrby hopened hpaired hnonneg hamount hinc
      simp only [resultOf]
      rw [hlong]
      refine ⟨?_, ?_, ?_, hremaining⟩
      · split
        · exact hn
        · exact Int.le_refl 0
      · split
        · rename_i hallowed
          rw [Bool.and_eq_true, decide_eq_true_eq] at hallowed
          -- the amount is at most the counter, which is below the bound: it was not rounded
          have hle : nearest n ≤ v := by
            have := count_nonneg (hopened.nonneg hnonneg)
            rw [hinc.value]
            omega
          have hv' := hexact hallowed.1
          have hlt : nearest n < exact := by omega
          rw [eq_of_nearest_lt hn hlt]
        · exact hamount
      · intro hgranted
        split at hgranted
        · rename_i hallowed
          rw [Bool.and_eq_true, decide_eq_true_eq] at hallowed
          rw [← hexact hallowed.1]
          exact hallowed.1
        · exact absurd hgranted (Int.lt_irrefl 0)

include hpos hlimit in
theorem remaining_exact {c : Int} (hc : 0 ≤ c)
    (hgrant : 0 < if nearest (nearest limit - nearest c) < 0 then 0
      else nearest (nearest limit - nearest c)) :
    (if nearest (nearest limit - nearest c) < 0 then 0
      else nearest (nearest limit - nearest c)) = limit - c := by
  have hround : nearest limit = limit := nearest_of_lt (Int.le_of_lt hpos) hlimit
  rw [hround] at hgrant ⊢
  have hnonneg : 0 ≤ limit - nearest c := by
    by_contra hneg
    have := nearest_nonpos (not_le.mp hneg)
    split at hgrant <;> omega
  have hcount : nearest c = c := by
    apply eq_of_nearest_lt hc
    omega
  rw [hcount] at hgrant hnonneg ⊢
  have hdiff : nearest (limit - c) = limit - c := by
    apply nearest_of_lt hnonneg
    omega
  rw [hdiff, if_neg (not_lt.mpr hnonneg)]

include hpos hlimit in
theorem allowAtMost_effect {n : Int} (hn : 0 ≤ n) (window now : Int) (hpaired : Paired s)
    (hnonneg : Nonneg s) (hbound : s.count + nearest n < countBound) :
    Effect limit s (allowAtMostFixedWindow redis n limit window now s) := by
  unfold allowAtMostFixedWindow rateLimitAllowAtMostScript
  dsimp only
  cases hw : currentWindow redis (nearest (unixMilli (now + window))) (nearest (unixMilli now)) s with
  | none => exact Effect.of_error hpaired hnonneg
  | some w =>
    have hopened := opened_of_currentWindow hw
    have hcount := count_nonneg (hopened.nonneg hnonneg)
    have hbound' : w.server.count < countBound := by
      have hbefore := hopened.count_le hnonneg
      have hamount := nearest_nonneg hn
      omega
    dsimp only
    have hexact := remaining_exact hpos hlimit hcount
    generalize (if nearest (nearest limit - nearest w.server.count) < 0 then (0 : Int)
      else nearest (nearest limit - nearest w.server.count)) = remaining at hexact ⊢
    by_cases hgrant : 0 < remaining ∧ 0 < nearest n
    · rw [if_pos hgrant]
      have hroom : 0 < limit - w.server.count := by
        rw [← hexact hgrant.1]
        exact hgrant.1
      rw [hexact hgrant.1]
      have hamount : 0 ≤ min (nearest n) (limit - w.server.count) :=
        le_min (nearest_nonneg hn) (Int.le_of_lt hroom)
      have hle : min (nearest n) (limit - w.server.count) ≤ limit - w.server.count := min_le_right _ _
      cases hi : incrby redis (min (nearest n) (limit - w.server.count)) w.server with
      | none => exact Effect.of_window hopened hpaired hnonneg
      | some p =>
        obtain ⟨s', v⟩ := p
        have hinc := incremented_of_incrby hi
        have hvalue := hinc.value
        have hsmall : limit < 9007199254740992 := hlimit
        have hlast : v < countBound := by
          unfold countBound
          omega
        obtain ⟨hlong, _, hremaining⟩ :=
          told_of_count redis hpos hlimit (show 0 ≤ v by omega) hlast
        have hgranted : redis.toLongLong (min (nearest n) (limit - w.server.count)) =
            min (nearest n) (limit - w.server.count) :=
          redis.toLongLong_eq _ (by omega) (by omega)
        apply Effect.of_incrby hopened hpaired hnonneg hamount hinc
        simp only [resultOf]
        rw [hlong, hgranted]
        exact ⟨hamount, Int.le_refl _, fun _ => by omega, hremaining⟩
    · rw [if_neg hgrant]
      obtain ⟨hlong, _, hremaining⟩ := told_of_count redis hpos hlimit hcount hbound'
      -- nothing is added: an increment by 0
      have hinc : Incremented w.server w.server 0 w.server.count :=
        ⟨(Int.add_zero _).symm, rfl, id, fun h _ => h⟩
      apply Effect.of_incrby hopened hpaired hnonneg (Int.le_refl 0) hinc
      simp only [resultOf]
      rw [hlong]
      exact ⟨Int.le_refl 0, Int.le_refl 0, fun h => absurd h (Int.lt_irrefl 0), hremaining⟩

include hpos hlimit in
theorem call_effect (method : Method) (n window now : Int) (hpaired : Paired s) (hnonneg : Nonneg s)
    (hbound : s.count + nearest n < countBound) :
    Effect limit s (call redis method n limit window now s) := by
  unfold call
  by_cases hn : n < 0
  · rw [if_pos hn]
    exact Effect.of_error hpaired hnonneg
  · rw [if_neg hn]
    cases method with
    | allowN => exact allowN_effect redis hpos hlimit (not_lt.mp hn) window now hpaired hnonneg hbound
    | allowAtMost =>
      exact allowAtMost_effect redis hpos hlimit (not_lt.mp hn) window now hpaired hnonneg hbound

end Scripts

/-! ## All calls of a window -/

def current : List Entry → Int
  | [] => 0
  | e :: es => e.granted + if e.reset then 0 else current es

structure Inv (limit : Int) (s : State) : Prop where
  paired : Paired s.server
  nonneg : Nonneg s.server
  covered : s.server.expires ≠ none → current s.log ≤ s.server.count
  bounded : ∀ l, l <:+ s.log → current l ≤ limit
  granted : ∀ e ∈ s.log, 0 ≤ e.granted
  remaining : ∀ e ∈ s.log, ∀ r, e.result = some r → r.remaining = max (limit - e.counter) 0

theorem inv_start (hpos : 0 < limit) (clock : Int) : Inv limit ⟨⟨clock, none, none⟩, []⟩ where
  paired := fun _ h => nomatch h
  nonneg := fun _ h => nomatch h
  covered := fun h => absurd rfl h
  bounded := by
    intro l hl
    rw [suffix_nil.mp hl]
    exact Int.le_of_lt hpos
  granted := fun _ h => nomatch h
  remaining := fun _ h => nomatch h

theorem inv_tick {s : State} (h : Inv limit s) (ms : Nat) :
    Inv limit { s with server := { s.server with clock := s.server.clock + ms } } := by
  have hle : s.server.clock ≤ s.server.clock + ms := by omega
  refine ⟨?_, h.nonneg, ?_, h.bounded, h.granted, h.remaining⟩
  · intro k hk hlive
    exact h.paired k hk (live_of_le hle hlive)
  · intro hexpires
    obtain ⟨k, hk, hlive⟩ := expires_ne_none hexpires
    have hold := live_of_le hle hlive
    obtain ⟨c, hc, hpx⟩ := h.paired k hk hold
    -- the counter goes with the expiry, so it is still there
    have hcount {t : Int} (ht : k.live t = true) : get t s.server.counter = some c.value := by
      unfold get
      rw [hc, filter_some, if_pos (by rw [live_congr hpx]; exact ht)]
      rfl
    have hbefore : s.server.expires ≠ none := by
      unfold Server.expires get
      rw [hk, filter_some, if_pos hold]
      exact some_ne_none _
    have hcovered := h.covered hbefore
    unfold Server.count at hcovered ⊢
    rw [hcount hold] at hcovered
    rw [hcount hlive]
    exact hcovered

theorem current_cons_le (hpos : 0 < limit) {s : State} (h : Inv limit s) {c : Call}
    (hc : Effect limit s.server c) (answered : Bool) (counter : Int) :
    0 ≤ Entry.granted ⟨c.reset, counter, if answered then c.result else none⟩ ∧
      (c.reset = true ∨ s.server.expires ≠ none →
        current (⟨c.reset, counter, if answered then c.result else none⟩ :: s.log) ≤
          c.server.count) ∧
      current (⟨c.reset, counter, if answered then c.result else none⟩ :: s.log) ≤ limit := by
  have hbase := hc.base_le
  -- what was granted before in the window is covered by what the counter stood at
  have hbefore : c.reset = true ∨ s.server.expires ≠ none →
      (if c.reset then 0 else current s.log) ≤ base s.server c.reset := by
    intro hknown
    cases hreset : c.reset with
    | true => exact Int.le_refl 0
    | false =>
      rw [hreset] at hknown
      exact h.covered (hknown.resolve_left Bool.false_ne_true)
  have hlast : (if c.reset then 0 else current s.log) ≤ limit := by
    split
    · exact Int.le_of_lt hpos
    · exact h.bounded s.log (suffix_refl _)
  have hnothing : ∀ g : Int, g = 0 → 0 ≤ g ∧
      (c.reset = true ∨ s.server.expires ≠ none →
        g + (if c.reset then 0 else current s.log) ≤ c.server.count) ∧
      g + (if c.reset then 0 else current s.log) ≤ limit := by
    rintro g rfl
    rw [Int.zero_add]
    exact ⟨Int.le_refl 0, fun hknown => Int.le_trans (hbefore hknown) hbase, hlast⟩
  cases answered with
  | false => exact hnothing _ rfl
  | true =>
    cases hr : c.result with
    | none => exact hnothing _ rfl
    | some r =>
      obtain ⟨hknown, hgranted, hsum, hlimit, _⟩ := hc.told r hr
      have hcover := hbefore hknown
      show _ ∧ (_ → r.granted + (if c.reset then 0 else current s.log) ≤ _) ∧
        r.granted + (if c.reset then 0 else current s.log) ≤ _
      generalize (if c.reset then 0 else current s.log) = before at hcover hlast ⊢
      refine ⟨hgranted, fun _ => by omega, ?_⟩
      · rcases Int.lt_or_eq_of_le hgranted with hsome | hzero
        · have := hlimit hsome
          omega
        · rw [← hzero, Int.zero_add]
          exact hlast

/-- The counter that a call finds and the amount stay clear of the end of the 64-bit range. -/
def Counts (s : State) : Event → Prop
  | .tick _ => True
  | .call _ n _ _ _ => s.server.count + nearest n < countBound

instance (s : State) : (a : Event) → Decidable (Counts s a)
  | .tick _ => isTrue trivial
  | .call _ _ _ _ _ => inferInstanceAs (Decidable (_ < _))

theorem inv_step (redis : Redis) (hpos : 0 < limit) (hlimit : limit < exact) (s : State) (a : Event)
    (t : State) (h : Inv limit s) (hcounts : Counts s a)
    (hstep : step redis limit s a = some t) : Inv limit t := by
  cases a with
  | tick ms =>
    rw [← some.inj hstep]
    exact inv_tick h ms
  | call method n window now answered =>
    rw [← some.inj hstep]
    have hc := call_effect redis hpos hlimit method n window now h.paired h.nonneg hcounts
    generalize call redis method n limit window now s.server = c at hc ⊢
    obtain ⟨hgranted, hcovered, hle⟩ := current_cons_le hpos h hc answered c.server.count
    refine ⟨hc.paired, hc.nonneg, fun hexpires => hcovered (hc.known hexpires), ?_, ?_, ?_⟩
    · intro l hl
      rcases suffix_cons_iff.mp hl with rfl | hl
      · exact hle
      · exact h.bounded l hl
    · intro e he
      rcases mem_cons.mp he with rfl | he
      · exact hgranted
      · exact h.granted e he
    · intro e he r hr
      rcases mem_cons.mp he with rfl | he
      · cases answered with
        | false => cases hr
        | true => exact (hc.told r hr).2.2.2.2
      · exact h.remaining e he r hr

theorem current_nonneg {l : List Entry} (h : ∀ e ∈ l, 0 ≤ e.granted) : 0 ≤ current l := by
  induction l with
  | nil => exact Int.le_refl 0
  | cons e l ih =>
    rw [forall_mem_cons] at h
    have hrest := ih h.2
    have he := h.1
    rw [current]
    split <;> omega

theorem sum_granted_le_current {w b : List Entry} (hgranted : ∀ e ∈ w ++ b, 0 ≤ e.granted)
    (hwindow : ∀ e ∈ w.dropLast, e.reset = false) :
    (w.map Entry.granted).sum ≤ current (w ++ b) := by
  induction w with
  | nil => exact current_nonneg hgranted
  | cons e w ih =>
    rw [cons_append, forall_mem_cons] at hgranted
    rw [cons_append, map_cons, sum_cons, current]
    cases w with
    | nil =>
      have hrest := current_nonneg hgranted.2
      rw [nil_append] at hrest
      rw [map_nil, sum_nil, nil_append]
      split <;> omega
    | cons e' w =>
      rw [dropLast_cons_cons, forall_mem_cons] at hwindow
      have hsum := ih hgranted.2 hwindow.2
      rw [hwindow.1, if_neg Bool.false_ne_true]
      omega

/-- With a limit that a double can count to, and a counter clear of the end of the 64-bit range, the
calls of a window are never granted more than the limit, and each is told what is left. -/
theorem granted_le_limit (redis : Redis) {limit : Int} (hpos : 0 < limit) (hlimit : limit < exact)
    {events : List Event} {s' : State}
    (hcounts : Machine.Guarded (step redis limit) Counts ⟨⟨clock, none, none⟩, []⟩ events)
    (hrun : run (step redis limit) ⟨⟨clock, none, none⟩, []⟩ events = some s') :
    (∀ after window before, s'.log = after ++ (window ++ before) →
      (∀ e ∈ window.dropLast, e.reset = false) → (window.map Entry.granted).sum ≤ limit) ∧
    ∀ e ∈ s'.log, ∀ r, e.result = some r → r.remaining = max (limit - e.counter) 0 := by
  have hinv := run_invariant_guarded (step redis limit) (inv_step redis hpos hlimit)
    (inv_start hpos clock) hcounts hrun
  refine ⟨fun after window before hlog hwindow => ?_, hinv.remaining⟩
  have hsuffix : window ++ before <:+ s'.log := ⟨after, hlog.symm⟩
  calc (window.map Entry.granted).sum
      ≤ current (window ++ before) :=
        sum_granted_le_current (fun e he => hinv.granted e (hsuffix.subset he)) hwindow
    _ ≤ limit := hinv.bounded _ hsuffix

/-- Integers up to `2 ^ 62` are printed as such; a number out of the range becomes the smallest
integer, as it does on the common processors. -/
def redis7 : Redis where
  argument x := if -4611686018427387904 ≤ x ∧ x ≤ 4611686018427387904 then some x else none
  toLongLong x :=
    if -9223372036854775808 ≤ x ∧ x < 9223372036854775808 then x else -9223372036854775808
  argument_eq := by
    intro x y h
    split at h
    · exact (Option.some.inj h).symm
    · cases h
  toLongLong_eq := fun x hlo hhi => if_pos ⟨hlo, hhi⟩

theorem granted_le_limit_three : ∃ s', run (step redis7 3) ⟨⟨1000, none, none⟩, []⟩
      [.call .allowN 2 60000000000 5000000000 true, .call .allowN 2 60000000000 1000000000 true,
        .call .allowAtMost 5 60000000000 9000000000 true] = some s' ∧
    (s'.log.map Entry.granted).sum ≤ 3 := by
  have hcounts : Machine.Guarded (step redis7 3) Counts ⟨⟨1000, none, none⟩, []⟩
      [.call .allowN 2 60000000000 5000000000 true, .call .allowN 2 60000000000 1000000000 true,
        .call .allowAtMost 5 60000000000 9000000000 true] := by
    decide +kernel
  obtain ⟨s', hrun, hwindow⟩ := exists_run (step redis7 3) ⟨⟨1000, none, none⟩, []⟩
    [.call .allowN 2 60000000000 5000000000 true, .call .allowN 2 60000000000 1000000000 true,
      .call .allowAtMost 5 60000000000 9000000000 true]
    (P := fun s' => ∀ e ∈ s'.log.dropLast, e.reset = false) (by decide +kernel)
  have h := granted_le_limit redis7 (by decide) (by decide) hcounts hrun
  exact ⟨s', hrun, h.1 [] s'.log [] (by simp) hwindow⟩

/-- A limit of `2 ^ 53`: the second call raises the counter to `2 ^ 53 + 1`, which the script reads
back as `2 ^ 53`. -/
theorem granted_past_large_limit : ∃ s', run (step redis7 9007199254740992)
      ⟨⟨1000, none, none⟩, []⟩
      [.call .allowN 9007199254740992 60000000000 1000000000 true,
        .call .allowN 1 60000000000 1000000000 true] = some s' ∧
    (∀ e ∈ s'.log.dropLast, e.reset = false) ∧
    (s'.log.map Entry.granted).sum = 9007199254740993 :=
  exists_run _ _ _ (by decide +kernel)

end Rueidis.Limiter.FixedWindow
