import Rueidis.Library.History
import Rueidis.Library.Machine
import Rueidis.Library.Threads

/-!
# Deduplicated calls

`singleflight.go`: a flight is one execution of `fn`.  It is stored in `c.fl` before the execution,
which a delayed call may begin much later, and taken out under the lock once the error is known;
then its channel is closed.  A `Do` that finds a flight stored waits for the channel, or for its
context, and returns the error of the flight.
-/

namespace Rueidis.Singleflight

open History

variable {E : Type} {fl : Option Nat}

inductive FlightPc where
  | installed
  | running
  | ran
  | cleared
  | closed
deriving DecidableEq, Repr

/-- `err` is nil until it is set.  `outcome` has what `fn` returned, and `closes` how often the
channel was closed. -/
structure Flight (E : Type) where
  pc : FlightPc := .installed
  err : Option E := none
  outcome : Option (Option E) := none
  closes : Nat := 0

/-- A caller has found a flight in `c.fl` or put one there, which it then executes. -/
inductive DoPc (E : Type) where
  | begun
  | joined (f : Nat) (owner : Bool)
  | cancelled
  | returned (f : Nat) (err : Option E) (left : Nat)

structure Doing (E : Type) where
  entered : Nat
  pc : DoPc E := .begun

/-- `history` has the value of `c.fl` after every step. -/
structure Call (E : Type) where
  fl : Option Nat := none
  cn : Nat := 0
  flights : List (Flight E) := []
  dos : List (Doing E) := []
  history : List (Option Nat) := [none]

inductive Act (E : Type) where
  | enter
  | lock (d : Nat)
  | delayDo
  | start (f : Nat)
  | finish (f : Nat) (err : Option E)
  | clear (f : Nat)
  | close (f : Nat)
  | leave (d : Nat)
  | cancel (d : Nat)

namespace Call

variable (s : Call E)

def install : Call E :=
  { s with fl := some s.flights.length, cn := s.cn + 1, flights := s.flights ++ [{}] }

def setFlight (f : Nat) (x : Flight E) : Call E := { s with flights := s.flights.set f x }

def setDo (d : Nat) (y : Doing E) : Call E := { s with dos := s.dos.set d y }

def act : Act E → Option (Call E)
  | .enter => some { s with dos := s.dos ++ [{ entered := s.history.length }] }
  | .lock d =>
    match s.dos[d]? with
    | some ⟨entered, .begun⟩ =>
      match s.fl with
      | some f => some ({ s with cn := s.cn + 1 }.setDo d ⟨entered, .joined f false⟩)
      | none => some (s.install.setDo d ⟨entered, .joined s.flights.length true⟩)
    | _ => none
  | .delayDo => if s.fl = none then some s.install else some s
  | .start f =>
    match s.flights[f]? with
    | some ⟨.installed, err, outcome, closes⟩ => some (s.setFlight f ⟨.running, err, outcome, closes⟩)
    | _ => none
  | .finish f err =>
    match s.flights[f]? with
    | some ⟨.running, _, _, closes⟩ => some (s.setFlight f ⟨.ran, err, some err, closes⟩)
    | _ => none
  | .clear f =>
    match s.flights[f]? with
    | some ⟨.ran, err, outcome, closes⟩ =>
      some { s.setFlight f ⟨.cleared, err, outcome, closes⟩ with fl := none, cn := 0 }
    | _ => none
  | .close f =>
    match s.flights[f]? with
    | some ⟨.cleared, err, outcome, closes⟩ =>
      some (s.setFlight f ⟨.closed, err, outcome, closes + 1⟩)
    | _ => none
  | .leave d =>
    match s.dos[d]? with
    | some ⟨entered, .joined f _⟩ =>
      match s.flights[f]? with
      | some ⟨.closed, err, _, _⟩ => some (s.setDo d ⟨entered, .returned f err s.history.length⟩)
      | _ => none
    | _ => none
  | .cancel d =>
    match s.dos[d]? with
    | some ⟨entered, .joined _ false⟩ => some (s.setDo d ⟨entered, .cancelled⟩)
    | _ => none

def step (a : Act E) : Option (Call E) :=
  (s.act a).map fun t => { t with history := t.history ++ [t.fl] }

end Call

/-! ## Flights -/

def FlightPc.stored : FlightPc → Bool
  | .installed | .running | .ran => true
  | .cleared | .closed => false

def FlightPc.executed : FlightPc → Bool
  | .installed | .running => false
  | .ran | .cleared | .closed => true

structure Flight.Ok (fl : Option Nat) (f : Nat) (x : Flight E) : Prop where
  slot : fl = some f ↔ x.pc.stored = true
  outcome : x.outcome.isSome = x.pc.executed
  err : x.err = x.outcome.getD none
  closes : x.closes = if x.pc = .closed then 1 else 0

theorem Flight.Ok.outcome_eq {f : Nat} {x : Flight E} (h : x.Ok fl f) (hex : x.pc.executed = true) :
    x.outcome = some x.err := by
  obtain ⟨err, herr⟩ := Option.isSome_iff_exists.mp (h.outcome.trans hex)
  rw [h.err, herr, Option.getD_some]

/-- `f` was in `c.fl` at a moment from `entered` on and before `left`. -/
def InstalledBetween (history : List (Option Nat)) (entered left f : Nat) : Prop :=
  ∃ moment, entered ≤ moment ∧ moment < left ∧ history[moment]? = some (some f)

def Doing.Ok (s : Call E) (y : Doing E) : Prop :=
  y.entered < s.history.length ∧
  match y.pc with
  | .begun | .cancelled => True
  | .joined f _ => InstalledBetween s.history y.entered s.history.length f
  | .returned f err left => InstalledBetween s.history y.entered left f ∧
      ∃ x, s.flights[f]? = some x ∧ x.outcome = some err

structure Inv (s : Call E) : Prop where
  flight : ∀ (f : Nat) (x : Flight E), s.flights[f]? = some x → x.Ok s.fl f
  doing : ∀ (d : Nat) (y : Doing E), s.dos[d]? = some y → y.Ok s

section Steps

variable {s t : Call E} {f d : Nat} {x x' : Flight E} {y : Doing E}
  {cn : Nat} {dos : List (Doing E)}

/-- What every step leaves to the callers it is not about. -/
structure Extends (s t : Call E) : Prop where
  history : t.history = s.history ++ [t.fl]
  kept : ∀ (f : Nat) (x : Flight E) err, s.flights[f]? = some x → x.outcome = some err →
    ∃ x' : Flight E, t.flights[f]? = some x' ∧ x'.outcome = some err

theorem InstalledBetween.extend {history : List (Option Nat)} {entered left left' : Nat}
    (h : InstalledBetween history entered left f) (hle : left ≤ left') (fl : Option Nat) :
    InstalledBetween (history ++ [fl]) entered left' f := by
  obtain ⟨m, hm, hlt, hat⟩ := h
  exact ⟨m, hm, by omega, (getElem?_snoc_iff ..).mpr (.inl hat)⟩

theorem Doing.Ok.extend (h : y.Ok s) (hext : Extends s t) : y.Ok t := by
  obtain ⟨entered, pc⟩ := y
  have hlen : t.history.length = s.history.length + 1 := by simp [hext.history]
  refine ⟨by have := h.1; omega, ?_⟩
  cases pc with
  | begun => trivial
  | cancelled => trivial
  | joined f owner =>
    rw [hext.history]
    exact InstalledBetween.extend h.2 (by simp) t.fl
  | returned f err left =>
    obtain ⟨-, hbetween, x, hx, hout⟩ := h
    refine ⟨?_, hext.kept f x err hx hout⟩
    rw [hext.history]
    exact hbetween.extend (Nat.le_refl _) t.fl

theorem Extends.of_same (s : Call E) :
    Extends s { s with dos := dos, cn := cn, history := s.history ++ [s.fl] } :=
  ⟨rfl, fun _ x _ hx hout => ⟨x, hx, hout⟩⟩

theorem Extends.of_install (s : Call E) :
    Extends s { s.install with dos := dos, history := s.history ++ [some s.flights.length] } :=
  ⟨rfl, fun _ x _ hx hout => ⟨x, (getElem?_snoc_iff ..).mpr (.inl hx), hout⟩⟩

theorem Extends.of_set (hx : s.flights[f]? = some x)
    (hout : ∀ err, x.outcome = some err → x'.outcome = some err) :
    Extends s { s.setFlight f x' with fl := fl, cn := cn, history := s.history ++ [fl] } where
  history := rfl
  kept := fun g z err hz hz' => by
    refine Threads.getElem?_set_of (P := fun z : Flight E => z.outcome = some err) hx ⟨z, hz, hz'⟩ ?_
    rintro rfl
    cases hx.symm.trans hz
    exact hout err hz'

theorem Inv.flight_install (h : Inv s) (hfl : s.fl = none) (g : Nat) (z : Flight E)
    (hz : s.install.flights[g]? = some z) : z.Ok s.install.fl g := by
  rcases (getElem?_snoc_iff ..).mp hz with hz | ⟨rfl, rfl⟩
  · have hok := h.flight g z hz
    have hlt := (List.getElem?_eq_some_iff.mp hz).1
    refine { hok with slot := ?_ }
    rw [← hok.slot, hfl]
    show some s.flights.length = some g ↔ _
    simp
    omega
  · exact ⟨by simp [Call.install, FlightPc.stored], rfl, rfl, rfl⟩

theorem Inv.move (h : Inv s) (hx : s.flights[f]? = some x) (hok : x'.Ok fl f)
    (hfl : ∀ g ≠ f, s.fl = some g ↔ fl = some g)
    (hout : ∀ err, x.outcome = some err → x'.outcome = some err) :
    Inv { s.setFlight f x' with fl := fl, cn := cn, history := s.history ++ [fl] } where
  flight := fun g z hz => by
    rcases Threads.of_getElem?_set hz with ⟨rfl, rfl⟩ | ⟨hne, hz⟩
    · exact hok
    · have hz := h.flight g z hz
      exact { hz with slot := by rw [← hfl g hne, hz.slot] }
  doing := fun d y hy => (h.doing d y hy).extend (.of_set hx hout)

theorem Inv.doing_set (h : Inv s) (hext : Extends s t) (hdos : t.dos = s.dos.set d y) (hy : y.Ok t)
    (e : Nat) (z : Doing E) (hz : t.dos[e]? = some z) : z.Ok t := by
  rw [hdos] at hz
  rcases Threads.of_getElem?_set hz with ⟨rfl, rfl⟩ | ⟨-, hz⟩
  · exact hy
  · exact (h.doing e z hz).extend hext

theorem Inv.step (a : Act E) (h : Inv s) (hstep : s.step a = some t) : Inv t := by
  obtain ⟨u, hu, rfl⟩ := Option.map_eq_some_iff.mp hstep
  cases a with
  | enter =>
    cases hu
    refine ⟨h.flight, fun d y hy => ?_⟩
    rcases (getElem?_snoc_iff ..).mp hy with hy | ⟨-, rfl⟩
    · exact (h.doing d y hy).extend (.of_same s)
    · exact ⟨by simp, trivial⟩
  | lock d =>
    simp only [Call.act] at hu
    split at hu
    next entered hd =>
      have hin : entered < s.history.length := (h.doing d _ hd).1
      split at hu
      next f hfl =>
        cases hu
        refine ⟨h.flight, h.doing_set (.of_same s) rfl ⟨?_, s.history.length, ?_⟩⟩
        · simp [Call.setDo]; omega
        · simp [Call.setDo, hfl]; omega
      next hfl =>
        cases hu
        refine ⟨h.flight_install hfl, h.doing_set (.of_install s) rfl ⟨?_, s.history.length, ?_⟩⟩
        · simp [Call.setDo, Call.install]; omega
        · simp [Call.setDo, Call.install]; omega
    · cases hu
  | delayDo =>
    simp only [Call.act] at hu
    split at hu
    next hfl =>
      cases hu
      exact ⟨h.flight_install hfl, fun d y hy => (h.doing d y hy).extend (.of_install s)⟩
    · cases hu
      exact ⟨h.flight, fun d y hy => (h.doing d y hy).extend (.of_same s)⟩
  | start f =>
    simp only [Call.act] at hu
    split at hu
    next err outcome closes hx =>
      cases hu
      have hok := h.flight f _ hx
      exact h.move hx ⟨hok.slot, hok.outcome, hok.err, hok.closes⟩ (fun _ _ => Iff.rfl) fun _ => id
    · cases hu
  | finish f err =>
    simp only [Call.act] at hu
    split at hu
    next old outcome closes hx =>
      cases hu
      have hok := h.flight f _ hx
      -- nothing was returned before, so no caller has left with another error
      have hnone : outcome = none := by simpa [FlightPc.executed] using hok.outcome
      exact h.move hx ⟨hok.slot, rfl, rfl, hok.closes⟩ (fun _ _ => Iff.rfl) (by simp [hnone])
    · cases hu
  | clear f =>
    simp only [Call.act] at hu
    split at hu
    next err outcome closes hx =>
      cases hu
      have hok := h.flight f _ hx
      have hfl : s.fl = some f := hok.slot.mpr rfl
      refine h.move hx ⟨by simp [FlightPc.stored], hok.outcome, hok.err, hok.closes⟩ (fun g hg => ?_)
        fun _ => id
      simp [hfl, Ne.symm hg]
    · cases hu
  | close f =>
    simp only [Call.act] at hu
    split at hu
    next err outcome closes hx =>
      cases hu
      have hok := h.flight f _ hx
      have hzero : closes = 0 := hok.closes
      exact h.move hx ⟨hok.slot, hok.outcome, hok.err, by simp [hzero]⟩ (fun _ _ => Iff.rfl) fun _ => id
    · cases hu
  | leave d =>
    simp only [Call.act] at hu
    split at hu
    next entered f owner hd =>
      split at hu
      next err outcome closes hx =>
        cases hu
        obtain ⟨hin, hbetween⟩ := h.doing d _ hd
        -- the channel is closed, so the error is set
        refine ⟨h.flight, h.doing_set (.of_same s) rfl
          ⟨?_, hbetween.extend (Nat.le_refl _) _, _, hx, (h.flight f _ hx).outcome_eq rfl⟩⟩
        rw [List.length_append]
        exact Nat.lt_succ_of_lt hin
      · cases hu
    · cases hu
  | cancel d =>
    simp only [Call.act] at hu
    split at hu
    next entered f hd =>
      cases hu
      refine ⟨h.flight, h.doing_set (.of_same s) rfl ⟨?_, trivial⟩⟩
      rw [List.length_append]
      exact Nat.lt_succ_of_lt (h.doing d _ hd).1
    · cases hu

end Steps

/-- In every run, however the callers and the flights are interleaved: no two executions of `fn` run
at once; a `Do` that was not cancelled returns what an execution returned whose flight was in `c.fl`
at a moment of that `Do`; and a channel is closed at most once, when the error is set and the flight
is not in `c.fl` any more. -/
theorem singleflight_reports (acts : List (Act E)) (s : Call E)
    (hrun : Machine.run Call.step {} acts = some s) :
    (∀ (f g : Nat) (x z : Flight E), s.flights[f]? = some x → s.flights[g]? = some z →
      x.pc = .running → z.pc = .running → f = g) ∧
    (∀ (d : Nat) (y : Doing E) f err left, s.dos[d]? = some y → y.pc = .returned f err left →
      InstalledBetween s.history y.entered left f ∧
        ∃ x : Flight E, s.flights[f]? = some x ∧ x.outcome = some err) ∧
    ∀ (f : Nat) (x : Flight E), s.flights[f]? = some x → x.closes ≤ 1 ∧
      (x.closes = 1 → x.outcome = some x.err ∧ s.fl ≠ some f) := by
  have h : Inv s := Machine.run_invariant Call.step (fun _ a _ hs => hs.step a)
    ⟨fun _ _ hx => by simp at hx, fun _ _ hy => by simp at hy⟩ hrun
  refine ⟨?_, ?_, ?_⟩
  · intro f g x z hx hz hxr hzr
    have hf := (h.flight f x hx).slot.mpr (by rw [hxr]; rfl)
    have hg := (h.flight g z hz).slot.mpr (by rw [hzr]; rfl)
    exact Option.some.inj (hf.symm.trans hg)
  · intro d y f err left hy hpc
    have hdo := (h.doing d y hy).2
    rw [hpc] at hdo
    exact hdo
  · intro f x hx
    have hok := h.flight f x hx
    have hcloses := hok.closes
    refine ⟨by rw [hcloses]; split <;> omega, fun hone => ?_⟩
    have hpc : x.pc = .closed := by
      by_contra hne
      rw [if_neg hne] at hcloses
      omega
    refine ⟨hok.outcome_eq (by rw [hpc]; rfl), fun hfl => ?_⟩
    have := hok.slot.mp hfl
    rw [hpc] at this
    cases this

def failingTwice : List (Act Nat) :=
  [.enter, .enter, .lock 0, .lock 1, .start 0, .finish 0 (some 7), .clear 0, .close 0, .leave 1]

theorem singleflight_reports_failure : ∃ s, Machine.run Call.step {} failingTwice = some s ∧
    InstalledBetween s.history 2 9 0 ∧
      ∃ x : Flight Nat, s.flights[0]? = some x ∧ x.outcome = some (some 7) :=
  ⟨_, rfl, (singleflight_reports failingTwice _ rfl).2.1 1 ⟨2, .returned 0 (some 7) 9⟩ 0 (some 7) 9 rfl
    rfl⟩

end Rueidis.Singleflight
