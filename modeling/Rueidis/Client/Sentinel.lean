import Rueidis.Message
import Mathlib.Data.Finset.Card

/-!
# The sentinel client

`_switchTarget` goes over to an address a sentinel has named, if the server there has the role it is
taken for.  `_refresh` asks one sentinel after the other until one leads to such a target.  The one just
tried goes to the back of the list, those it has named come to the front, and the loop ends when the
first one tried is in front again.
-/

namespace Rueidis.Sentinel

open List

/-! ## Switching -/

inductive Role where
  | master
  | slave
deriving DecidableEq, Repr

def Role.word : Role → Bytes
  | .master => lit "master"
  | .slave => lit "slave"

def Role.mismatch : Role → Err
  | .master => .other "the redis role is not master"
  | .slave => .other "the redis role is not slave"

/-- A connection: which one it is, and the address `connFn` was called with. -/
structure Conn where
  id : Nat
  addr : Bytes
deriving DecidableEq, Repr

/-- `mAddr` and `mConn`, or `rAddr` and `rConn`.  They are stored one after the other, so a call may
find the address of another connection than the one it finds. -/
structure Slot where
  addr : Option Bytes := none
  conn : Option Conn := none
deriving DecidableEq, Repr

structure Client where
  stop : Bool
  slot : Role → Slot
  next : Nat
  id_lt_next : ∀ role conn, (slot role).conn = some conn → conn.id < next

/-- What a call meets: which connections report an error, and the outcomes of `Dial` and of ROLE, an
error or the first element of an array. -/
structure Network where
  broken : Conn → Bool
  dial : Option Err
  role : Conn → Except Err Bytes

structure Switched where
  slot : Role → Slot
  dialed : Option Conn := none
  closed : List Conn := []
  err : Option Err := none

/-- The type assertion on what is loaded fails if nothing was stored. -/
def nilConversion : Panic := ⟨"interface conversion: interface is nil, not rueidis.conn"⟩

def Client.reusable (c : Client) (w : Network) (addr : Bytes) (role : Role) :
    Except Panic (Option Conn) :=
  if (c.slot role).addr = some addr then
    match (c.slot role).conn with
    | none => .error nilConversion
    | some conn => .ok (if w.broken conn then none else some conn)
  else .ok none

def Client.switchTo (c : Client) (w : Network) (addr : Bytes) (role : Role) (reused : Option Conn) :
    Switched :=
  let target := reused.getD ⟨c.next, addr⟩
  if reused = none ∧ w.dial ≠ none then { slot := c.slot, err := w.dial }
  else
    let dialed := if reused = none then some target else none
    match w.role target with
    | .error err => { slot := c.slot, dialed := dialed, closed := dialed.toList, err := some err }
    | .ok word =>
      if word ≠ role.word then
        { slot := c.slot, dialed := dialed, closed := dialed.toList, err := some role.mismatch }
      else
        { slot := Function.update c.slot role ⟨some addr, some target⟩
          dialed := dialed
          closed := (c.slot role).conn.toList.filter fun prev => decide (prev ≠ target) }

def Client.switchTarget (c : Client) (w : Network) (addr : Bytes) (role : Role) :
    Except Panic Switched :=
  if c.stop then .ok { slot := c.slot }
  else (c.reusable w addr role).map (c.switchTo w addr role)

/-- A call that fails leaves the slots and the connections in them alone and closes what it dialed;
a call that succeeds has a connection to the address in the slot of the role, whose server has this
role, and has closed the connection before it if that is another one. -/
structure Switched.Atomic (c : Client) (w : Network) (addr : Bytes) (role : Role) (t : Switched) :
    Prop where
  failed : ∀ err, t.err = some err → t.slot = c.slot ∧
    (∀ q conn, (c.slot q).conn = some conn → conn ∉ t.closed) ∧
    ∀ conn, t.dialed = some conn → conn ∈ t.closed
  succeeded : t.err = none → c.stop = false → ∃ conn, t.slot role = ⟨some addr, some conn⟩ ∧
    conn.addr = addr ∧ w.role conn = .ok role.word ∧
    (∀ prev, (c.slot role).conn = some prev → (prev ∈ t.closed ↔ prev ≠ conn)) ∧
    ∀ q ≠ role, t.slot q = c.slot q

section Switch

variable {c : Client} {w : Network} {addr : Bytes} {role : Role}

theorem not_held_next (q : Role) : (c.slot q).conn ≠ some ⟨c.next, addr⟩ :=
  fun h => Nat.lt_irrefl _ (c.id_lt_next q _ h)

theorem switchTo_atomic_iff (hrun : c.stop = false) (reused : Option Conn) :
    (c.switchTo w addr role reused).Atomic c w addr role ↔
      ∀ conn, reused = some conn → conn.addr = addr ∨ w.role conn ≠ .ok role.word := by
  -- what a failing call closes it has made itself
  have hown : ∀ q conn, (c.slot q).conn = some conn → conn ∉ (if reused = none then
      some (reused.getD ⟨c.next, addr⟩) else none).toList := by
    intro q conn hconn hmem
    cases reused with
    | none => exact not_held_next q (mem_singleton.mp hmem ▸ hconn)
    | some _ => cases hmem
  have htarget : (∀ conn, reused = some conn → conn.addr = addr ∨ w.role conn ≠ .ok role.word) ↔
      (reused.getD ⟨c.next, addr⟩).addr = addr ∨
        w.role (reused.getD ⟨c.next, addr⟩) ≠ .ok role.word := by
    cases reused <;> simp
  rw [htarget]
  unfold Client.switchTo
  by_cases hdial : reused = none ∧ w.dial ≠ none
  · rw [if_pos hdial]
    refine iff_of_true ⟨fun _ _ => ⟨rfl, fun _ _ _ => not_mem_nil, nofun⟩, fun h => absurd h hdial.2⟩
      (.inl ?_)
    rw [hdial.1]
    rfl
  · rw [if_neg hdial]
    generalize reused.getD ⟨c.next, addr⟩ = target at hown ⊢
    set dialed := if reused = none then some target else none
    have hfailed : ∀ err, Switched.Atomic c w addr role ⟨c.slot, dialed, dialed.toList, some err⟩ :=
      fun err => ⟨fun _ _ => ⟨rfl, hown, fun conn h => Option.mem_toList.mpr h⟩, nofun⟩
    cases hrole : w.role target with
    | error err => exact iff_of_true (hfailed err) (.inr nofun)
    | ok word =>
      dsimp only
      by_cases hword : word = role.word
      · rw [if_neg (not_not.mpr hword), hword]
        constructor
        · intro h
          obtain ⟨conn, hslot, haddr, -⟩ := h.succeeded rfl hrun
          have hconn : target = conn := by simpa using hslot
          exact .inl (hconn ▸ haddr)
        · intro h
          have haddr := h.resolve_right (not_not.mpr rfl)
          refine ⟨nofun, fun _ _ => ⟨target, ?_, haddr, hword ▸ hrole, ?_, ?_⟩⟩
          · simp
          · intro prev hprev
            simp [hprev]
          · intro q hq
            simp [hq]
      · rw [if_pos hword]
        exact iff_of_true (hfailed _) (.inr fun h => hword (Except.ok.inj h))

end Switch

/-- The condition: unless the client is stopped, an address in the slot that is the one to go over
to comes with a connection, which reports an error, is one to this address, or does not have the
role. -/
def Client.Reuses (c : Client) (w : Network) (addr : Bytes) (role : Role) : Prop :=
  c.stop = true ∨ ((c.slot role).addr = some addr → ∃ conn, (c.slot role).conn = some conn ∧
    (w.broken conn = true ∨ conn.addr = addr ∨ w.role conn ≠ .ok role.word))

theorem switchTarget_atomic_iff (c : Client) (w : Network) (addr : Bytes) (role : Role) :
    (∃ t, c.switchTarget w addr role = .ok t ∧ t.Atomic c w addr role) ↔
      c.Reuses w addr role := by
  unfold Client.Reuses Client.switchTarget
  by_cases hstop : c.stop = true
  · rw [if_pos hstop]
    exact iff_of_true ⟨_, rfl, nofun, fun _ h => absurd hstop (Bool.eq_false_iff.mp h)⟩ (.inl hstop)
  rw [if_neg hstop, or_iff_right hstop]
  have hatomic : ∀ reused, (c.switchTo w addr role reused).Atomic c w addr role ↔
      ∀ conn, reused = some conn → conn.addr = addr ∨ w.role conn ≠ .ok role.word :=
    switchTo_atomic_iff (Bool.eq_false_iff.mpr hstop)
  unfold Client.reusable
  by_cases haddr : (c.slot role).addr = some addr
  · rw [if_pos haddr]
    cases (c.slot role).conn with
    | none => simp [Except.map, haddr]
    | some conn => cases hbroken : w.broken conn <;> simp [Except.map, hatomic, haddr, hbroken]
  · rw [if_neg haddr]
    simp [Except.map, hatomic, haddr]

def unused : Client := { stop := false, slot := fun _ => {}, next := 0, id_lt_next := by simp }

def masters : Network :=
  { broken := fun _ => false, dial := none, role := fun _ => .ok (lit "master") }

theorem switchTarget_atomic_iff_unused :
    ∃ t, unused.switchTarget masters (lit "b:1") .master = .ok t ∧
      t.Atomic unused masters (lit "b:1") .master :=
  (switchTarget_atomic_iff unused masters (lit "b:1") .master).mpr (.inr nofun)

/-- What two calls leave whose stores are interleaved: the address of one, the connection of the
other. -/
def torn : Client where
  stop := false
  slot _ := ⟨some (lit "b:1"), some ⟨0, lit "a:1"⟩⟩
  next := 1
  id_lt_next := by simp

/-- Going over to this address keeps the connection to the other one. -/
theorem switchTarget_keeps_other_address :
    ∃ t, torn.switchTarget masters (lit "b:1") .master = .ok t ∧ t.err = none ∧
      t.slot .master = ⟨some (lit "b:1"), some ⟨0, lit "a:1"⟩⟩ ∧
      ¬ t.Atomic torn masters (lit "b:1") .master := by
  refine ⟨_, rfl, rfl, rfl, fun h => ?_⟩
  obtain ⟨conn, hslot, haddr, -⟩ := h.succeeded rfl rfl
  cases hslot
  exact absurd haddr (by decide)

/-! ## Going through the sentinels -/

/-- An element of `c.sentinels`; two elements may have one address. -/
structure Element where
  id : Nat
  addr : Bytes
deriving DecidableEq, Repr

/-- What the attempts of a refresh meet, by their number: whether the client has been stopped,
whether the connection at hand reports no error, whether the dial succeeds, what a sentinel that
answers names, and whether a target can then be switched to.  The named addresses are among `known`.
-/
structure Sentinels where
  known : List Bytes
  stopped : Nat → Bool
  healthy : Nat → Bool
  dials : Nat → Bool
  listWatch : Nat → Option (List Bytes)
  switches : Nat → Bool
  named_known : ∀ k named, listWatch k = some named → ∀ addr ∈ named, addr ∈ known

/-- The state of the loop: `sAddr` is the address of `c.sConn`, if there is one.  `tried` has the
addresses that were dialed or asked, `seen` those that were in the list. -/
structure Refreshing where
  sentinels : List Element
  sAddr : Option Bytes
  err : Bool := false
  tried : List Bytes := []
  seen : List Bytes := []

def addSentinel (l : List Element) (addr : Bytes) : List Element :=
  if l.any (·.addr = addr) then l else ⟨l.length, addr⟩ :: l

def moveToBack (l : List Element) (e : Element) : List Element := l.erase e ++ [e]

namespace Sentinels

variable (w : Sentinels)

/-- The body of the loop for the element `e`, with whether a target was switched to. -/
def attempt (k : Nat) (s : Refreshing) (e : Element) : Refreshing × Bool :=
  let redial := decide (s.sAddr ≠ some e.addr) || !w.healthy k
  let err := if redial then !w.dials k else s.err
  let s := { s with sAddr := some e.addr, err := err }
  let s := if redial || !err then { s with tried := s.tried ++ [e.addr] } else s
  if err then (s, false)
  else match w.listWatch k with
    | none => ({ s with err := true }, false)
    | some named =>
      let sentinels := named.foldl addSentinel s.sentinels
      ({ s with
          sentinels := sentinels, err := !w.switches k, seen := s.seen ++ sentinels.map (·.addr) },
        w.switches k)

/-- The loop from attempt `k` on, with the error it leaves; `none` when the fuel is used up. -/
def loop (head : Element) : (fuel k : Nat) → Refreshing → Option Refreshing
  | 0, _, _ => none
  | fuel + 1, k, s =>
    match s.sentinels with
    | [] => some s
    | e :: _ =>
      if w.stopped k then some { s with err := false }
      else
        let (s, switched) := w.attempt k s e
        if switched then some s
        else
          let s := { s with sentinels := moveToBack s.sentinels e }
          if s.sentinels.head? = some head then some s else loop head fuel (k + 1) s

def refresh (fuel : Nat) (addrs : List Bytes) (sAddr : Option Bytes) : Option Refreshing :=
  let sentinels := addrs.zipIdx.map fun (addr, i) => ⟨i, addr⟩
  let s : Refreshing := { sentinels := sentinels, sAddr := sAddr, seen := addrs }
  match sentinels with
  | [] => some s
  | head :: _ => w.loop head fuel 0 s

/-- The loop can be left before everyone was tried: the client is stopped, or a target is found. -/
def Leaves : Prop := ∃ k, w.stopped k = true ∨ w.switches k = true

end Sentinels

section List

variable {known : List Bytes} {l : List Element}

def addrs (l : List Element) : List Bytes := l.map (·.addr)

structure Distinct (l : List Element) : Prop where
  ids : (l.map (·.id)).Nodup
  fresh : ∀ e ∈ l, e.id < l.length

def unlisted (known : List Bytes) (l : List Element) : Finset Bytes :=
  known.toFinset \ (addrs l).toFinset

theorem addSentinel_spec {addr : Bytes} (hl : Distinct l) (haddr : addr ∈ known) :
    ∃ new, addSentinel l addr = new ++ l ∧ Distinct (new ++ l) ∧
      (unlisted known (new ++ l)).card + new.length ≤ (unlisted known l).card := by
  by_cases hany : l.any (·.addr = addr) = true
  · exact ⟨[], if_pos hany, hl, Nat.le_refl _⟩
  · refine ⟨[⟨l.length, addr⟩], if_neg hany, ⟨?_, ?_⟩, ?_⟩
    · refine nodup_cons.mpr ⟨fun hmem => ?_, hl.ids⟩
      obtain ⟨e, he, hid⟩ := mem_map.mp hmem
      have := hl.fresh e he
      dsimp only at hid
      omega
    · intro e he
      rcases mem_cons.mp he with rfl | he
      · simp
      · have := hl.fresh e he
        simp
        omega
    · -- the address leaves the set of those not listed
      have hmem : addr ∈ unlisted known l := by
        simp_all [unlisted, addrs]
      have herase : unlisted known ([⟨l.length, addr⟩] ++ l) = (unlisted known l).erase addr := by
        ext a
        simp [unlisted, addrs]
        tauto
      rw [herase]
      exact Finset.card_erase_lt_of_mem hmem

theorem foldl_addSentinel_spec (named : List Bytes) (hl : Distinct l)
    (hnamed : ∀ addr ∈ named, addr ∈ known) :
    ∃ new, named.foldl addSentinel l = new ++ l ∧ Distinct (new ++ l) ∧
      (unlisted known (new ++ l)).card + new.length ≤ (unlisted known l).card := by
  induction named generalizing l with
  | nil => exact ⟨[], rfl, hl, Nat.le_refl _⟩
  | cons addr named ih =>
    obtain ⟨haddr, hnamed⟩ := forall_mem_cons.mp hnamed
    obtain ⟨new₁, heq₁, hl₁, hle₁⟩ := addSentinel_spec hl haddr
    obtain ⟨new₂, heq₂, hl₂, hle₂⟩ := ih hl₁ hnamed
    refine ⟨new₂ ++ new₁, ?_, ?_, ?_⟩
    · rw [foldl_cons, heq₁, heq₂, append_assoc]
    · rwa [append_assoc]
    · rw [append_assoc, length_append]
      omega

theorem moveToBack_eq {new rest : List Element} {e : Element} (hl : Distinct (new ++ e :: rest)) :
    moveToBack (new ++ e :: rest) e = new ++ rest ++ [e] := by
  have hnot : e ∉ new := by
    intro hmem
    have := hl.ids
    rw [map_append, nodup_append] at this
    exact this.2.2 _ (mem_map_of_mem hmem) _ (mem_map_of_mem mem_cons_self) rfl
  rw [moveToBack, erase_append_right _ hnot, erase_cons_head]

theorem Distinct.perm {l' : List Element} (hl : Distinct l) (hperm : l.Perm l') : Distinct l' :=
  ⟨(hperm.map _).nodup_iff.mp hl.ids,
    fun e he => hperm.length_eq ▸ hl.fresh e (hperm.mem_iff.mpr he)⟩

end List

/-- What holds between two attempts: of the list, `todo` is still to come and `done` has been
tried. -/
structure Turning (s : Refreshing) (todo done : List Element) : Prop where
  split : s.sentinels = todo ++ done
  distinct : Distinct s.sentinels
  tried : ∀ e ∈ done, e.addr ∈ s.tried
  seen : ∀ addr ∈ s.seen, addr ∈ addrs s.sentinels
  stale : s.err = true → ∀ addr, s.sAddr = some addr → addr ∈ s.tried

section Loop

variable {w : Sentinels} {s : Refreshing} {e : Element} {rest done : List Element}

theorem attempt_list (k : Nat) :
    ((w.attempt k s e).1.sentinels = s.sentinels ∧ (w.attempt k s e).1.seen = s.seen) ∨
      ∃ named, w.listWatch k = some named ∧
        (w.attempt k s e).1.sentinels = named.foldl addSentinel s.sentinels ∧
        (w.attempt k s e).1.seen = s.seen ++ addrs (w.attempt k s e).1.sentinels := by
  unfold Sentinels.attempt
  generalize (decide (s.sAddr ≠ some e.addr) || !w.healthy k) = redial
  cases w.listWatch k <;> cases redial <;> cases s.err <;> cases w.dials k <;> simp [addrs]

theorem attempt_seen (k : Nat) : ∀ addr ∈ s.seen, addr ∈ (w.attempt k s e).1.seen := by
  intro addr ha
  rcases attempt_list (w := w) (s := s) (e := e) k with ⟨-, hs⟩ | ⟨named, -, -, hs⟩
  · exact hs ▸ ha
  · rw [hs]
    exact mem_append_left _ ha

theorem attempt_tried (k : Nat)
    (hstale : s.err = true → ∀ addr, s.sAddr = some addr → addr ∈ s.tried) :
    (w.attempt k s e).1.sAddr = some e.addr ∧ e.addr ∈ (w.attempt k s e).1.tried ∧
      (∀ addr ∈ s.tried, addr ∈ (w.attempt k s e).1.tried) ∧
      (w.attempt k s e).1.err = !(w.attempt k s e).2 ∧
      ((w.attempt k s e).2 = true → w.switches k = true) := by
  unfold Sentinels.attempt
  by_cases hredial : (decide (s.sAddr ≠ some e.addr) || !w.healthy k) = true
  · rw [hredial]
    cases w.listWatch k <;> cases w.dials k <;> simp +contextual
  · rw [Bool.not_eq_true] at hredial
    -- without a dial the connection at hand is one to this address
    have haddr : s.sAddr = some e.addr := by simp_all
    rw [hredial]
    cases hlist : w.listWatch k <;> cases herr : s.err <;> simp +contextual
    all_goals exact hstale herr _ haddr

/-- An attempt that leads nowhere: the element goes from the front of what is to come to the end of
what has been tried, and what is new comes to the front. -/
theorem Turning.attempt (h : Turning s (e :: rest) done) (k : Nat)
    (hfail : (w.attempt k s e).2 = false) :
    ∃ new, Turning { (w.attempt k s e).1 with
        sentinels := moveToBack (w.attempt k s e).1.sentinels e } (new ++ rest) (done ++ [e]) ∧
      (w.attempt k s e).1.err = true ∧
      (unlisted w.known (moveToBack (w.attempt k s e).1.sentinels e)).card + (new ++ rest).length <
        (unlisted w.known s.sentinels).card + (e :: rest).length := by
  obtain ⟨haddr, htried, hkeep, herr, -⟩ := attempt_tried (w := w) (e := e) k h.stale
  -- what the sentinel has named comes before the list as it was
  obtain ⟨new, hnew, hdistinct, hcard, hseen⟩ : ∃ new,
      (w.attempt k s e).1.sentinels = new ++ s.sentinels ∧ Distinct (new ++ s.sentinels) ∧
      (unlisted w.known (new ++ s.sentinels)).card + new.length ≤
        (unlisted w.known s.sentinels).card ∧
      ∀ addr ∈ (w.attempt k s e).1.seen, addr ∈ addrs (new ++ s.sentinels) := by
    rcases attempt_list (w := w) (s := s) (e := e) k with ⟨hl, hs⟩ | ⟨named, hwatch, hl, hs⟩
    · exact ⟨[], hl, h.distinct, Nat.le_refl _, fun addr ha => h.seen addr (hs ▸ ha)⟩
    · obtain ⟨new, heq, hd, hc⟩ :=
        foldl_addSentinel_spec named h.distinct (w.named_known k named hwatch)
      refine ⟨new, hl.trans heq, hd, hc, fun addr ha => ?_⟩
      rw [hs, hl.trans heq, mem_append] at ha
      rcases ha with ha | ha
      · simp only [addrs, map_append, mem_append]
        exact Or.inr (h.seen addr ha)
      · exact ha
  have hmove : moveToBack (w.attempt k s e).1.sentinels e = (new ++ rest) ++ (done ++ [e]) := by
    rw [h.split, cons_append] at hdistinct
    rw [hnew, h.split, cons_append, moveToBack_eq hdistinct]
    simp
  have hperm : (new ++ s.sentinels).Perm ((new ++ rest) ++ (done ++ [e])) := by
    rw [h.split, append_assoc, perm_append_left_iff, ← append_assoc]
    exact (perm_append_singleton e (rest ++ done)).symm
  refine ⟨new, ⟨hmove, ?_, ?_, ?_, ?_⟩, by rw [herr, hfail]; rfl, ?_⟩
  · rw [hmove]
    exact hdistinct.perm hperm
  · intro x hx
    rcases mem_append.mp hx with hx | hx
    · exact hkeep _ (h.tried x hx)
    · rw [mem_singleton.mp hx]
      exact htried
  · intro addr ha
    rw [hmove]
    exact ((hperm.map _).mem_iff).mp (hseen addr ha)
  · intro _ addr ha
    cases haddr.symm.trans ha
    exact htried
  · have hsame : unlisted w.known ((new ++ rest) ++ (done ++ [e])) =
        unlisted w.known (new ++ s.sentinels) := by
      unfold unlisted addrs
      rw [toFinset_eq_of_perm _ _ (hperm.map _)]
    rw [hmove, hsame, length_append, length_cons]
    omega

theorem Turning.loop {head : Element} (fuel : Nat) {todo : List Element} (h : Turning s todo done)
    (hnext : todo ≠ []) (hhead : (done ++ todo).head? = some head)
    (hfuel : (unlisted w.known s.sentinels).card + todo.length ≤ fuel) (k : Nat) :
    ∃ r, w.loop head fuel k s = some r ∧ (∀ addr ∈ s.seen, addr ∈ r.seen) ∧
      (r.err = true → ∀ addr ∈ r.seen ++ addrs r.sentinels, addr ∈ r.tried) ∧
      (r.err = false → w.Leaves) := by
  induction fuel generalizing s todo done k with
  | zero =>
    have := length_pos_iff.mpr hnext
    omega
  | succ fuel ih =>
    obtain ⟨e, rest, rfl⟩ := exists_cons_of_ne_nil hnext
    rw [Sentinels.loop, h.split]
    dsimp only [cons_append]
    by_cases hstop : w.stopped k = true
    · rw [if_pos hstop]
      exact ⟨_, rfl, fun _ h => h, nofun, fun _ => ⟨k, .inl hstop⟩⟩
    · rw [if_neg hstop]
      cases hswitched : (w.attempt k s e).2 with
      | true =>
        rw [if_pos rfl]
        obtain ⟨-, -, -, herr, hfound⟩ := attempt_tried (w := w) (e := e) k h.stale
        refine ⟨_, rfl, attempt_seen k, fun h => ?_, fun _ => ⟨k, .inr (hfound hswitched)⟩⟩
        rw [herr, hswitched] at h
        cases h
      | false =>
        obtain ⟨new, hturn, herr, hless⟩ := h.attempt (w := w) k hswitched
        have hfirst : (done ++ [e]).head? = some head := by
          cases done <;> simpa using hhead
        have hall : moveToBack (w.attempt k s e).1.sentinels e = (new ++ rest) ++ (done ++ [e]) :=
          hturn.split
        rw [if_neg Bool.false_ne_true]
        by_cases hempty : new ++ rest = []
        · -- the head is in front again, and the whole list has been tried
          rw [hempty, nil_append] at hall
          rw [if_pos (by rw [hall]; exact hfirst)]
          refine ⟨_, rfl, attempt_seen k, fun _ addr ha => ?_, fun h => by simp [herr] at h⟩
          obtain ⟨x, hx, rfl⟩ := mem_map.mp ((mem_append.mp ha).elim (hturn.seen addr) id)
          exact hturn.tried x (hall ▸ hx)
        · rw [if_neg]
          · obtain ⟨r, hr, hseen, hend⟩ := ih hturn hempty (by rw [head?_append, hfirst]; rfl)
              (by dsimp only; omega) (k + 1)
            exact ⟨r, hr, fun addr ha => hseen addr (attempt_seen k addr ha), hend⟩
          · -- what is in front is not the head, which comes later in the list
            intro hfront
            have hnodup : (moveToBack (w.attempt k s e).1.sentinels e).Nodup :=
              Nodup.of_map _ hturn.distinct.ids
            rw [hall] at hfront hnodup
            rw [head?_append_of_ne_nil _ hempty] at hfront
            exact (nodup_append.mp hnodup).2.2 _ (mem_of_mem_head? hfront) _
              (mem_of_mem_head? hfirst) rfl

end Loop

/-- The only sentinel that answers names another one, and neither leads to a target. -/
def leadingNowhere : Sentinels where
  known := [lit "s:2"]
  stopped _ := false
  healthy _ := false
  dials k := k == 0
  listWatch _ := some [lit "s:2"]
  switches _ := false
  named_known := by
    rintro _ _ ⟨⟩ _ h
    exact h

end Rueidis.Sentinel
