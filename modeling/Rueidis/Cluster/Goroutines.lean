import Rueidis.Cluster.PickMulti
import Rueidis.Library.History
import Rueidis.Library.Machine

/-!
# A batch on a cluster, with its goroutines

A round starts a goroutine for every bucket of the retries; a goroutine sends its commands and then
its askings, handles the replies one by one, and adds to the retries what has to be sent again.
Setting a result and adding to the retries are steps of their own, and the steps of the goroutines
come in any order.
-/

namespace Rueidis

abbrev Heard := RedisResult × Moment

structure Sent where
  index : Nat
  cmd : Completed
  resp : RedisResult
  now : Moment

/-- The reply, or `ErrClosing` in the place of a redirection while the client is closing. -/
def Sent.outcome (e : Sent) : RedisResult :=
  match isClosingRedirect e.now e.resp with
  | .ok true => newErrorResult (some .closing)
  | _ => e.resp

namespace Goroutine

/-- Where a goroutine is: about to send what is framed from `start` on; at the reply `i`; about to
add the command at `i` to the retries. -/
inductive Pc where
  | call (asking : Bool) (start : Nat) (got : List Heard)
  | handle (asking : Bool) (got : List Heard) (i : Nat) (sc : Scan)
  | add (asking : Bool) (got : List Heard) (i : Nat) (sc : Scan) (a : Added)
  | done

/-- What is sent: `some j` is the command at `j`, and `none` an ASKING. -/
def frame (asking : Bool) (cmds : List Completed) : List (Option Nat) :=
  if asking then ClusterClient.askingFrame false 0 cmds else (List.range cmds.length).map some

def marked (frame : List (Option Nat)) (got : List Heard) : List (Nat × Heard) :=
  (frame.zip got).filterMap fun q => q.1.map fun j => (j, q.2)

def recoverFrom (asking : Bool) (cmds : List Completed) (resps : List RedisResult) : Option Nat :=
  if asking then ClusterClient.askingFrom (frame true cmds) 0 0 resps else expiredFrom cmds 0 0 resps

def askings (re : Retry) : Pc := if re.cAskings.isEmpty then .done else .call true 0 []

def begin (re : Retry) : Pc := if re.commands.isEmpty then askings re else .call false 0 []

end Goroutine

structure Goroutine where
  cc : Nat
  re : Retry
  pc : Goroutine.Pc

def Goroutine.isDone (g : Goroutine) : Bool :=
  match g.pc with
  | .done => true
  | _ => false

theorem Goroutine.isDone_iff {g : Goroutine} : g.isDone = true ↔ g.pc = .done := by
  unfold isDone
  split
  next hpc => exact iff_of_true rfl hpc
  next hpc => exact iff_of_false nofun hpc

structure BatchState where
  retries : Connretry
  results : List RedisResult
  goroutines : List Goroutine := []
  round : Nat := 0
  attempts : Nat := 1
  redirects : Nat := 0
  running : Bool := false
  returned : Bool := false
  log : List Sent := []

inductive BatchStep where
  | launch
  /-- The connection of the goroutine `t` has answered. -/
  | answer (t : Nat) (rs : List Heard)
  | handle (t : Nat)
  | add (t : Nat)
  /-- All goroutines are done; `order` is the order of the map of buckets. -/
  | join (order : List (Nat × Retry))

namespace BatchState

open Goroutine

variable (c : ClusterClient) (hasInit : Bool)

def start (multi : List Completed) (retries : Connretry) : BatchState :=
  { retries := retries, results := List.replicate multi.length {} }

def launch (s : BatchState) : Option BatchState :=
  if s.running || s.returned then none
  else some { s with
    goroutines := s.retries.m.map fun q => { cc := q.1, re := q.2, pc := begin q.2 }
    retries := { s.retries with m := [], retryDelay := -1 }
    running := true }

def sentBy (re : Retry) (asking : Bool) (q : Nat × Heard) : Sent :=
  { index := (re.indexes asking).getD q.1 0
    cmd := (re.cmds asking).getD q.1 {}
    resp := q.2.1
    now := q.2.2 }

def answer (s : BatchState) (t : Nat) (rs : List Heard) : Option BatchState :=
  match s.goroutines[t]? with
  | some ⟨cc, re, .call asking start got⟩ =>
    let fr := frame asking (re.cmds asking)
    if rs.length = fr.length - start then
      let got := got.take start ++ rs
      let pc :=
        match if c.hasLftm then recoverFrom asking (re.cmds asking) (got.map (·.1)) else none with
        | some start => .call asking start got
        | none => .handle asking ((marked fr got).map (·.2)) 0 {}
      some { s with
        goroutines := s.goroutines.set t ⟨cc, re, pc⟩
        log := s.log ++ (marked (fr.drop start) rs).map (sentBy re asking) }
    else none
  | _ => none

/-- One turn of the loop of `doresultfn` up to the lock; a panic ends the program. -/
def handle (s : BatchState) (t : Nat) : Option BatchState :=
  match s.goroutines[t]? with
  | some ⟨cc, re, .handle asking got i sc⟩ =>
    match got[i]? with
    | none =>
      some { s with
        goroutines := s.goroutines.set t ⟨cc, re, if asking then .done else askings re⟩ }
    | some (resp, now) =>
      match (re.cmds asking)[i]?, shouldRefreshRetry now resp.error,
        isClosingRedirect now resp with
      | some cm, .ok (addr, mode), .ok closing =>
        let rd := c.round asking s.round cc s.attempts hasInit
        let r := if resends rd cm mode
          then redirected rd (re.cmds asking) (got.map (·.1)) i cm resp addr mode sc
          else (sc, none)
        let pc :=
          match r.2 with
          | some a => .add asking got i r.1 a
          | none => .handle asking got (i + 1) r.1
        some { s with
          results := s.results.set ((re.indexes asking).getD i 0)
            (if closing then newErrorResult (some .closing) else resp)
          goroutines := s.goroutines.set t ⟨cc, re, pc⟩ }
      | _, _, _ => none
  | _ => none

def add (s : BatchState) (t : Nat) : Option BatchState :=
  match s.goroutines[t]? with
  | some ⟨cc, re, .add asking got i sc a⟩ =>
    some { s with
      retries := s.retries.add (re.indexes asking) (re.cmds asking) a
      goroutines := s.goroutines.set t ⟨cc, re, .handle asking got (i + 1) sc⟩ }
  | _ => none

def join (s : BatchState) (order : List (Nat × Retry)) : Option BatchState :=
  if s.running && !s.returned && s.goroutines.all Goroutine.isDone && order.isPerm s.retries.m then
    match c.next s.round { s.retries with m := order } s.attempts s.redirects with
    | .again retries attempts redirects => some { s with
        retries := retries
        attempts := attempts
        redirects := redirects
        goroutines := []
        round := s.round + 1
        running := false }
    | _ => some { s with returned := true }
  else none

def step (s : BatchState) : BatchStep → Option BatchState
  | .launch => s.launch
  | .answer t rs => s.answer c t rs
  | .handle t => s.handle c hasInit t
  | .add t => s.add t
  | .join order => s.join c order

/-! ## What a step can do -/

inductive Taken (s : BatchState) : BatchStep → BatchState → Prop where
  | launch (hidle : s.running = false) (hopen : s.returned = false) :
      Taken s .launch { s with
        goroutines := s.retries.m.map fun q => { cc := q.1, re := q.2, pc := begin q.2 }
        retries := { s.retries with m := [], retryDelay := -1 }
        running := true }
  | answer {t cc start : Nat} {rs got : List Heard} {re : Retry} {asking : Bool} {pc : Pc}
      (ht : s.goroutines[t]? = some ⟨cc, re, .call asking start got⟩)
      (hlen : rs.length = ((frame asking (re.cmds asking)).drop start).length)
      (hpc : (∃ start', pc = .call asking start' (got.take start ++ rs)) ∨
        pc = .handle asking ((marked (frame asking (re.cmds asking)) (got.take start ++ rs)).map (·.2))
          0 {}) :
      Taken s (.answer t rs) { s with
        goroutines := s.goroutines.set t ⟨cc, re, pc⟩
        log := s.log ++ (marked ((frame asking (re.cmds asking)).drop start) rs).map
          (sentBy re asking) }
  | finished {t cc i : Nat} {re : Retry} {asking : Bool} {got : List Heard} {sc : Scan}
      (ht : s.goroutines[t]? = some ⟨cc, re, .handle asking got i sc⟩) (hgot : got[i]? = none) :
      Taken s (.handle t) { s with
        goroutines := s.goroutines.set t ⟨cc, re, if asking then .done else askings re⟩ }
  | handled {t cc i : Nat} {re : Retry} {asking : Bool} {got : List Heard} {sc : Scan}
      {resp : RedisResult} {now : Moment} {cm : Completed} {addr : Bytes} {mode : RedirectMode}
      {closing : Bool} {r : Scan × Option Added} {pc : Pc}
      (ht : s.goroutines[t]? = some ⟨cc, re, .handle asking got i sc⟩)
      (hgot : got[i]? = some (resp, now)) (hcm : (re.cmds asking)[i]? = some cm)
      (hmode : shouldRefreshRetry now resp.error = .ok (addr, mode))
      (hclosing : isClosingRedirect now resp = .ok closing)
      (hr : r = if resends (c.round asking s.round cc s.attempts hasInit) cm mode
        then redirected (c.round asking s.round cc s.attempts hasInit) (re.cmds asking)
          (got.map (·.1)) i cm resp addr mode sc
        else (sc, none))
      (hpc : (∃ a, r.2 = some a ∧ pc = .add asking got i r.1 a) ∨
        r.2 = none ∧ pc = .handle asking got (i + 1) r.1) :
      Taken s (.handle t) { s with
        results := s.results.set ((re.indexes asking).getD i 0)
          (if closing then newErrorResult (some .closing) else resp)
        goroutines := s.goroutines.set t ⟨cc, re, pc⟩ }
  | add {t cc i : Nat} {re : Retry} {asking : Bool} {got : List Heard} {sc : Scan} {a : Added}
      (ht : s.goroutines[t]? = some ⟨cc, re, .add asking got i sc a⟩) :
      Taken s (.add t) { s with
        retries := s.retries.add (re.indexes asking) (re.cmds asking) a
        goroutines := s.goroutines.set t ⟨cc, re, .handle asking got (i + 1) sc⟩ }
  | again {order : List (Nat × Retry)} {retries : Connretry} {attempts redirects : Nat}
      (hrunning : s.running = true) (hopen : s.returned = false)
      (hdone : ∀ g ∈ s.goroutines, g.pc = .done) (hperm : order.Perm s.retries.m)
      (hnext : c.next s.round { s.retries with m := order } s.attempts s.redirects =
        .again retries attempts redirects) :
      Taken s (.join order) { s with
        retries := retries
        attempts := attempts
        redirects := redirects
        goroutines := []
        round := s.round + 1
        running := false }
  | returned {order : List (Nat × Retry)} (hrunning : s.running = true)
      (hopen : s.returned = false) (hdone : ∀ g ∈ s.goroutines, g.pc = .done)
      (hperm : order.Perm s.retries.m)
      (hnext : ∀ retries attempts redirects,
        c.next s.round { s.retries with m := order } s.attempts s.redirects ≠
          .again retries attempts redirects) :
      Taken s (.join order) { s with returned := true }

variable {c hasInit} {s s' : BatchState} {t : Nat}

theorem taken_launch (h : s.launch = some s') : Taken c hasInit s .launch s' := by
  unfold BatchState.launch at h
  split at h <;> cases h
  next hidle =>
  rw [Bool.or_eq_true, not_or, Bool.not_eq_true, Bool.not_eq_true] at hidle
  exact .launch hidle.1 hidle.2

theorem taken_answer {rs : List Heard} (h : s.answer c t rs = some s') :
    Taken c hasInit s (.answer t rs) s' := by
  unfold BatchState.answer at h
  split at h <;> try cases h
  next ht =>
  dsimp only at h
  split at h <;> cases h
  next hlen =>
  rw [← List.length_drop] at hlen
  apply Taken.answer ht hlen
  split
  · exact Or.inl ⟨_, rfl⟩
  · exact Or.inr rfl

theorem taken_handle (h : s.handle c hasInit t = some s') : Taken c hasInit s (.handle t) s' := by
  unfold BatchState.handle at h
  split at h <;> try cases h
  next cc re asking got i sc ht =>
  split at h
  next hgot =>
    cases h
    exact .finished ht hgot
  next resp now hgot =>
  split at h
  case h_2 => cases h
  next cm addr mode closing hcm hmode hclosing =>
  dsimp only at h
  generalize hr : (if resends (c.round asking s.round cc s.attempts hasInit) cm mode = true
    then redirected (c.round asking s.round cc s.attempts hasInit) (re.cmds asking)
      (got.map (·.1)) i cm resp addr mode sc
    else (sc, none)) = r at h
  cases h
  refine Taken.handled ht hgot hcm hmode hclosing hr.symm ?_
  cases r.2 with
  | some a => exact Or.inl ⟨a, rfl, rfl⟩
  | none => exact Or.inr ⟨rfl, rfl⟩

theorem taken_add (h : s.add t = some s') : Taken c hasInit s (.add t) s' := by
  unfold BatchState.add at h
  split at h <;> cases h
  next ht => exact .add ht

theorem taken_join {order : List (Nat × Retry)} (h : s.join c order = some s') :
    Taken c hasInit s (.join order) s' := by
  unfold BatchState.join at h
  split at h <;> try cases h
  next hguard =>
  simp only [Bool.and_eq_true, Bool.not_eq_true', List.all_eq_true, List.isPerm_iff] at hguard
  obtain ⟨⟨⟨hrunning, hopen⟩, hdone⟩, hperm⟩ := hguard
  have hpc : ∀ g ∈ s.goroutines, g.pc = .done := fun g hg => isDone_iff.mp (hdone g hg)
  split at h <;> cases h
  next hnext => exact .again hrunning hopen hpc hperm hnext
  next hnext => exact .returned hrunning hopen hpc hperm hnext

theorem taken_of_step {a : BatchStep} (h : s.step c hasInit a = some s') :
    Taken c hasInit s a s' := by
  cases a with
  | launch => exact taken_launch h
  | answer t rs => exact taken_answer h
  | handle t => exact taken_handle h
  | add t => exact taken_add h
  | join order => exact taken_join h

end BatchState

end Rueidis
