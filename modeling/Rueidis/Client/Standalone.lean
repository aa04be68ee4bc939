import Rueidis.Client.Recycle

/-!
# Batches through the standalone client

A primary that has handed over to another node answers REDIRECT.  `DoMulti` then connects to the
other node and sends the batch again, all of it: what the old primary had executed and answered before
it handed over is executed a second time.
-/

namespace Rueidis

open List

variable {multi : List Completed} {rounds : Nat}

def isRedirect (m : RedisMessage) : Except Panic (Option Bytes) :=
  redirectAddr (lit "REDIRECT") 1 m.string

def Completed.pin (c : Completed) : Completed := { c with cs := { c.cs with r := 1 } }

/-- The client, with what it meets in a round: how often other calls have swapped the primary since
the round before, the random number of `pick`, the outcome of going over to the address of a reply,
and what is read before trying again.  Primaries are numbered in the order in which they are put in
place.  `nodes` is the number of nodes a selector chooses from. -/
structure Standalone where
  toReplicas : Option (Completed → Bool)
  nodeSelector : Option (UInt16 → Int)
  nodes : Nat
  replicas : List SingleClient
  enableRedirect : Bool
  primary : (loaded : Nat) → SingleClient
  swaps : (round : Nat) → Nat
  rand : (round : Nat) → Nat
  redirectToPrimary : (round i : Nat) → Bytes → Option Err
  now : (round i : Nat) → Reading

namespace Standalone

variable (s : Standalone)

/-- The node, and whether it is the primary. -/
def pick (k loaded : Nat) (slot : UInt16) : Except Panic (Bool × SingleClient) :=
  match s.nodeSelector with
  | some selector =>
    let rIndex := selector slot
    let rIndex := if rIndex < 0 ∨ (s.nodes : Int) ≤ rIndex then 0 else rIndex
    if rIndex = 0 then .ok (true, s.primary loaded)
    else (s.replicas[rIndex.toNat - 1]?).elim (.error indexOutOfRange) fun c => .ok (false, c)
  | none =>
    match s.replicas with
    | [] => .error ⟨"invalid argument to IntN"⟩
    | [replica] => .ok (false, replica)
    | replicas =>
      (replicas[s.rand k % replicas.length]?).elim (.error indexOutOfRange) fun c => .ok (false, c)

def target (k loaded : Nat) (multi : List Completed) : Except Panic (Bool × SingleClient) :=
  let toReplica := match s.toReplicas with
    | none => false
    | some toReplicas => multi.all toReplicas
  match multi with
  | cmd :: _ => if toReplica then s.pick k loaded cmd.slot else .ok (true, s.primary loaded)
  | [] => .ok (true, s.primary loaded)

def handleRedirect (k i : Nat) (err : Option Err) : Except Panic (Option (Option Err)) :=
  match err with
  | some (.redis m) =>
    match isRedirect m with
    | .error p => .error p
    | .ok none => .ok none
    | .ok (some addr) => .ok (some (s.redirectToPrimary k i addr))
  | _ => .ok none

/-- How a round ends: the batch is sent again, after a redirect that was followed or that failed, or
the results are returned. -/
inductive Next where
  | redirected
  | retried (err : Err)
  | returned
deriving DecidableEq, Repr

def redirectLoop (k : Nat) : Nat → List RedisResult → Except Panic Next
  | _, [] => .ok .returned
  | i, result :: rest =>
    match s.handleRedirect k i result.error with
    | .error p => .error p
    | .ok none => redirectLoop k (i + 1) rest
    | .ok (some none) => .ok .redirected
    | .ok (some (some err)) =>
      .ok (if waitOrSkipRetry (s.now k i) then .retried err else .returned)

/-- A round: the primary in place, whether the batch went to it, and the call of the single
client. -/
structure Sending where
  loaded : Nat
  toPrimary : Bool
  call : Outcome

/-- A call so far; `resp` is what it returned, and `puts` what it recycled by force. -/
structure Batch where
  rounds : List Sending := []
  resp : Option (List RedisResult) := none
  puts : List Nat := []

def Batch.after (r : Sending) (b : Batch) : Batch := { b with rounds := r :: b.rounds }

def doMultiLoop (multi : List Completed) (fuel : Nat) : (rounds k loaded : Nat) → Except Panic Batch
  | 0, _, _ => .ok {}
  | rounds + 1, k, loaded =>
    match s.target k loaded multi with
    | .error p => .error p
    | .ok (toPrimary, client) =>
      let call := client.doMulti multi fuel
      let sending : Sending := ⟨loaded, toPrimary, call⟩
      match call.resps with
      | none => .ok { rounds := [sending] }
      | some resp =>
        if s.enableRedirect then
          match s.redirectLoop k 0 resp with
          | .error p => .error p
          | .ok .returned =>
            .ok { rounds := [sending], resp := some resp, puts := putsFrom 0 resp }
          | .ok next =>
            let swapped := if next = .redirected then 1 else 0
            match doMultiLoop multi fuel rounds (k + 1) (loaded + swapped + s.swaps k) with
            | .error p => .error p
            | .ok later => .ok (later.after sending)
        else .ok { rounds := [sending], resp := some resp }

def pinned (multi : List Completed) : List Completed :=
  if s.enableRedirect then multi.map Completed.pin else multi

def doMulti (multi : List Completed) (fuel rounds : Nat) : Except Panic Batch :=
  s.doMultiLoop (s.pinned multi) fuel rounds 1 0

end Standalone

/-! ## Acknowledged commands -/

variable {b : Batch}

def RedisResult.acknowledges (r : RedisResult) : Bool :=
  match r.error with
  | none => true
  | some err => err == .nil

namespace Standalone

def Sending.sends (multi : List Completed) (r : Sending) (i : Nat) : Prop :=
  ∃ ev ∈ r.call.events multi, ev.uses i

def Sending.acknowledged (r : Sending) (i : Nat) : Prop :=
  ∃ resp result, r.call.resps = some resp ∧ resp[i]? = some result ∧ result.acknowledges = true

/-- The batch goes to a primary that was put in place after the one of the earlier round `r`. -/
def Sending.toNewPrimary (r r' : Sending) : Prop := r'.toPrimary = true ∧ r.loaded < r'.loaded

/-- A new primary gets no command that must not be repeated and that was acknowledged in any earlier
round. -/
def Batch.NotRepeated (multi : List Completed) (b : Batch) : Prop :=
  b.rounds.Pairwise fun r r' => r.toNewPrimary r' →
    ∀ i cmd, multi[i]? = some cmd → cmd.isRetryable = false → r.acknowledged i →
      ¬ r'.sends multi i

/-- All that was acknowledged before the batch goes to a new primary may be repeated. -/
def Batch.OnlyRetryable (multi : List Completed) (b : Batch) : Prop :=
  b.rounds.Pairwise fun r r' => r.toNewPrimary r' →
    ∀ i cmd, multi[i]? = some cmd → r.acknowledged i → cmd.isRetryable = true

theorem notRepeated_iff_of_sends
    (hsends : ∀ r ∈ b.rounds, ∀ r' ∈ b.rounds, ∀ i, i < multi.length → r.acknowledged i →
      r'.sends multi i) : b.NotRepeated multi ↔ b.OnlyRetryable multi := by
  refine Pairwise.iff_of_mem fun {r r'} hr hr' => forall_congr' fun _ => ?_
  constructor
  · intro h i cmd hcmd hack
    have hlt : i < multi.length := (List.getElem?_eq_some_iff.mp hcmd).1
    by_contra hnot
    exact h i cmd hcmd (Bool.eq_false_iff.mpr hnot) hack (hsends r hr r' hr' i hlt hack)
  · intro h i cmd hcmd hnot hack
    have hretryable := h i cmd hcmd hack
    rw [hnot] at hretryable
    cases hretryable

end Standalone

/-! ## Every round sends the whole batch -/

section Whole

variable {multi : List Completed} {fuel : Nat}

theorem doMultiLoop_sends_all {hasLftm retry : Bool} {pick : Nat → Conn}
    {again : Nat → Nat → Option Err → Bool} {attempts i : Nat} (hi : i < multi.length) :
    ∃ ev ∈ (doMultiLoop hasLftm retry pick again multi fuel (rounds + 1) attempts).events multi,
      ev.uses i := by
  have hattempts : ∃ a later, (doMultiLoop hasLftm retry pick again multi fuel (rounds + 1)
      attempts).attempts = a :: later := by
    rw [doMultiLoop]
    split
    · exact ⟨_, [], rfl⟩
    · split
      · exact ⟨_, _, rfl⟩
      · exact ⟨_, [], rfl⟩
  obtain ⟨a, later, hattempts⟩ := hattempts
  refine ⟨.sent (range multi.length), ?_, mem_range.mpr hi⟩
  unfold Outcome.events sentEvents
  rw [hattempts, flatMap_cons]
  simp

theorem SingleClient.doMulti_sends_all (client : SingleClient) (hfuel : 0 < fuel) {i : Nat}
    (hi : i < multi.length) : ∃ ev ∈ (client.doMulti multi fuel).events multi, ev.uses i := by
  have hne : multi.isEmpty = false := by
    cases multi with
    | nil => exact absurd hi (Nat.not_lt_zero i)
    | cons _ _ => rfl
  cases fuel with
  | zero => exact absurd hfuel (Nat.lt_irrefl 0)
  | succ n =>
    unfold SingleClient.doMulti
    rw [if_neg (Bool.eq_false_iff.mp hne)]
    exact doMultiLoop_sends_all hi

theorem SingleClient.fuel_pos_of_returned {client : SingleClient} {resps : List RedisResult}
    (hne : 0 < multi.length) (h : (client.doMulti multi fuel).resps = some resps) : 0 < fuel := by
  cases fuel with
  | succ n => exact Nat.succ_pos n
  | zero =>
    unfold SingleClient.doMulti at h
    rw [if_neg (by rw [isEmpty_iff_length_eq_zero]; omega)] at h
    cases h

end Whole

namespace Standalone

variable {s : Standalone}

theorem doMultiLoop_rounds {fuel k loaded : Nat}
    (h : s.doMultiLoop multi fuel rounds k loaded = .ok b) :
    ∀ r ∈ b.rounds, ∃ client : SingleClient, r.call = client.doMulti multi fuel := by
  induction rounds generalizing k loaded b with
  | zero =>
    cases h
    nofun
  | succ rounds ih =>
    rw [doMultiLoop] at h
    cases htarget : s.target k loaded multi with
    | error p => simp [htarget] at h
    | ok node =>
      obtain ⟨toPrimary, client⟩ := node
      rw [htarget] at h
      dsimp only at h
      -- the first round, if it is the only one
      have hone : ∀ r ∈ [Sending.mk loaded toPrimary (client.doMulti multi fuel)],
          ∃ client' : SingleClient, r.call = client'.doMulti multi fuel :=
        forall_mem_singleton.mpr ⟨client, rfl⟩
      split at h
      · cases h
        exact hone
      · split at h
        · split at h
          · cases h
          · cases h
            exact hone
          · split at h
            · cases h
            · rename_i later hlater
              cases h
              exact forall_mem_cons.mpr ⟨⟨client, rfl⟩, ih hlater⟩
        · cases h
          exact hone

def handingOver : Standalone where
  toReplicas := none
  nodeSelector := none
  nodes := 0
  replicas := []
  enableRedirect := true
  primary loaded :=
    { conn := failingAt (if loaded = 0 then 1 else 2) (replyOf typeSimpleErr "REDIRECT 10.0.0.2:6379")
      retry := true
      hasLftm := false
      now := fun _ _ => {} }
  swaps _ := 0
  rand _ := 0
  redirectToPrimary _ _ _ := none
  now _ _ := {}

def setCmd : Completed := newCompleted [lit "SET", lit "k", lit "v"]

end Standalone

end Rueidis
