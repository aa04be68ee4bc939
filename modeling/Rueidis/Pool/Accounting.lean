import Rueidis.Library.Machine
import Rueidis.Pool.Model

/-!
# The accounting of the pool

`size` is meant to count the wires that are idle or were made and not yet stored.  In every run it
does, but for the pipes of done contexts: `Acquire` returns them without counting them, and `Store`
takes them off again.
-/

namespace Rueidis

open List Machine

/-- A call for which a wire was made, or is being made, that is not stored yet. -/
def PoolCall.counted : PoolCall → Bool
  | .making => true
  | .holding (.made _) => true
  | _ => false

def PoolCall.weight (call : PoolCall) : Nat := if call.counted then 1 else 0

namespace PoolSystem

def idle (s : PoolSystem) : Nat := s.pool.list.length

def unstored (s : PoolSystem) : Nat := s.calls.countP PoolCall.counted

/-- The books are right: `size` is the number of wires, and there are at most `cap` of them. -/
structure Accounted (s : PoolSystem) : Prop where
  size_eq : s.pool.size = s.idle + s.unstored
  nonneg : 0 ≤ s.pool.size
  alive_le : s.idle + s.unstored ≤ s.pool.cap

end PoolSystem

/-! ## One critical section -/

def Acquired.taken : Acquired → Nat
  | .makes => 1
  | .returns (.made _) => 1
  | _ => 0

theorem Acquired.taken_eq (acquired : Acquired) :
    acquired.call.weight = acquired.taken := by
  match acquired with
  | .waits => rfl
  | .makes => rfl
  | .returns (.made v) => rfl
  | .returns (.cancelled err) => rfl
  | .returns .dead => rfl

/-- What a pass keeps: the difference of `size` and the idle wires, up to what it takes on. -/
structure RetrySpec (p : Pool) (list : List Nat) (size : Int)
    (out : Pool × List PoolWire × Acquired) : Prop where
  cap : out.1.cap = p.cap
  down : out.1.down = p.down
  balance : out.1.size + list.length = size + out.1.list.length + out.2.2.taken
  size_le : size ≤ p.cap → out.1.size ≤ p.cap
  dead : out.2.2 = .returns .dead → p.down = true

theorem Pool.retry_spec (ctxErr : Nat → Option Err) (p : Pool) (list : List Nat) (size : Int)
    (wires : List PoolWire) : RetrySpec p list size (p.retry ctxErr list size wires) := by
  -- each pass through `retry` takes one wire off the list
  induction list generalizing size wires with
  | nil =>
    unfold Pool.retry
    match ctxErr 0 with
    | some err => exact ⟨rfl, rfl, by simp [Acquired.taken], fun h => h, by simp⟩
    | none =>
      dsimp only
      by_cases hdown : p.down = true
      · rw [if_pos hdown]
        exact ⟨rfl, rfl, by simp [Acquired.taken], fun h => h, fun _ => hdown⟩
      rw [if_neg hdown]
      by_cases hfull : size = p.cap
      · rw [if_pos hfull]
        exact ⟨rfl, rfl, by simp [Acquired.taken], fun h => h, by simp⟩
      · rw [if_neg hfull]
        refine ⟨rfl, rfl, by simp [Acquired.taken], fun h => ?_, by simp⟩
        show size + 1 ≤ p.cap
        omega
  | cons v list ih =>
    unfold Pool.retry
    match ctxErr (list.length + 1) with
    | some err => exact ⟨rfl, rfl, by simp [Acquired.taken], fun h => h, by simp⟩
    | none =>
      dsimp only
      by_cases hdown : p.down = true
      · rw [if_pos hdown]
        exact ⟨rfl, rfl, by simp [Acquired.taken], fun h => h, fun _ => hdown⟩
      rw [if_neg hdown]
      split
      · -- the wire is given up, and `size` goes down with the list
        have hspec := ih (size - 1) (wires.set v ((wires.getD v {}).stopTimer).2.close)
        refine ⟨hspec.cap, hspec.down, ?_, fun h => hspec.size_le (by omega), hspec.dead⟩
        have hbalance := hspec.balance
        rw [length_cons]
        omega
      · refine ⟨rfl, rfl, ?_, fun h => h, by simp⟩
        simp only [length_cons, Acquired.taken]
        omega

/-- What is given back to the pool is an idle wire more, or one less in `size`. -/
structure StoreSpec (p out : Pool) : Prop where
  cap : out.cap = p.cap
  down : out.down = p.down
  balance : out.size + p.list.length + 1 = p.size + out.list.length
  size_le : out.size ≤ p.size

theorem Pool.startTimerIfNeeded_spec {p q : Pool} (h : StoreSpec p q) :
    StoreSpec p q.startTimerIfNeeded := by
  unfold Pool.startTimerIfNeeded
  split
  · exact h
  · exact ⟨h.cap, h.down, h.balance, h.size_le⟩

theorem Pool.store_spec (p : Pool) (wires : List PoolWire) (handle : Handle) :
    StoreSpec p (p.store wires handle).1 := by
  -- `Store` of a wire with an error only takes it off
  have hdrop : StoreSpec p { p with size := p.size - 1 } := by
    refine ⟨rfl, rfl, ?_, ?_⟩
    · show p.size - 1 + p.list.length + 1 = p.size + p.list.length
      omega
    · show p.size - 1 ≤ p.size
      omega
  unfold Pool.store
  match handle with
  | .made v =>
    dsimp only
    split
    · apply Pool.startTimerIfNeeded_spec
      refine ⟨rfl, rfl, ?_, Int.le_refl _⟩
      show p.size + p.list.length + 1 = p.size + ((p.list.length + 1 : Nat) : Int)
      omega
    · exact hdrop
  | .cancelled err =>
    dsimp only
    rw [if_neg (by simp [Handle.error])]
    exact hdrop
  | .dead =>
    dsimp only
    rw [if_neg (by simp [Handle.error])]
    exact hdrop

/-! ## One step -/

structure PoolInv (s : PoolSystem) : Prop where
  size_le : s.pool.size ≤ s.pool.cap
  balance : s.pool.down = false →
    s.pool.size + s.cancelledStored = s.idle + s.unstored
  dead : .holding .dead ∈ s.calls → s.pool.down = true

namespace PoolSystem

variable {s : PoolSystem} {i : Nat} {call : PoolCall}

variable (hcall : s.calls[i]? = some call)

include hcall

theorem unstored_split :
    s.unstored = (s.calls.take i).countP PoolCall.counted + call.weight +
      (s.calls.drop (i + 1)).countP PoolCall.counted := by
  obtain ⟨hlt, hget⟩ := List.getElem?_eq_some_iff.mp hcall
  have hsplit : s.calls = s.calls.take i ++ call :: s.calls.drop (i + 1) := by
    rw [← hget, List.getElem_cons_drop, List.take_append_drop]
  unfold unstored
  conv_lhs => rw [hsplit]
  rw [List.countP_append, List.countP_cons, PoolCall.weight]
  omega

theorem unstored_set (call' : PoolCall) :
    (s.calls.set i call').countP PoolCall.counted + call.weight =
      s.unstored + call'.weight := by
  have hlt := (List.getElem?_eq_some_iff.mp hcall).1
  rw [unstored_split hcall, List.set_eq_take_append_cons_drop, if_pos hlt, List.countP_append,
    List.countP_cons, PoolCall.weight, PoolCall.weight]
  omega

theorem unstored_eraseIdx :
    (s.calls.eraseIdx i).countP PoolCall.counted + call.weight =
      s.unstored := by
  rw [unstored_split hcall, eraseIdx_eq_take_drop_succ, countP_append]
  omega

theorem inv_proceed (hsize : s.pool.size ≤ s.pool.cap)
    (hbalance : s.pool.down = false → s.pool.size + s.cancelledStored + call.weight =
      s.idle + s.unstored)
    (hdead : .holding .dead ∈ s.calls → s.pool.down = true) (ctxErr : Nat → Option Err) :
    PoolInv (s.proceed i ctxErr) := by
  have hspec := s.pool.retry_spec ctxErr s.pool.list s.pool.size s.wires
  unfold proceed
  generalize s.pool.retry ctxErr s.pool.list s.pool.size s.wires = out at hspec
  obtain ⟨p, wires, acquired⟩ := out
  refine ⟨?_, ?_, ?_⟩
  · show p.size ≤ p.cap
    rw [hspec.cap]
    exact hspec.size_le hsize
  · intro hdown
    have hbooks := hbalance (hspec.down.symm.trans hdown)
    have hmoved := hspec.balance
    have hset := unstored_set hcall acquired.call
    rw [acquired.taken_eq] at hset
    show p.size + (s.cancelledStored : Int) = (p.list.length : Int) + _
    unfold leave unstored
    dsimp only at hmoved hset ⊢
    unfold idle at hbooks
    omega
  · intro hmem
    show p.down = true
    rw [hspec.down]
    rcases mem_or_eq_of_mem_set hmem with hmem | heq
    · exact hdead hmem
    · refine hspec.dead ?_
      cases acquired with
      | returns handle =>
        cases heq
        rfl
      | waits => cases heq
      | makes => cases heq

omit hcall

theorem inv_finishMake (hcall : s.calls[i]? = some .making) (h : PoolInv s) (w : PoolWire)
    (ctxErr : Nat → Option Err) : PoolInv (s.finishMake i w ctxErr) := by
  unfold finishMake
  dsimp only
  split
  · -- the wire was counted when the call went to make it
    refine ⟨h.size_le, fun hdown => ?_, fun hmem => ?_⟩
    · have hset := unstored_set hcall (.holding (.made s.wires.length))
      have hbooks := h.balance hdown
      have hsame : (s.calls.set i (.holding (.made s.wires.length))).countP PoolCall.counted =
          s.unstored := by
        change _ + 1 = _ + 1 at hset
        omega
      show s.pool.size + (s.cancelledStored : Int) = (s.idle : Int) + (countP _ _ : Nat)
      rw [hsame, hbooks]
    · rcases mem_or_eq_of_mem_set hmem with hmem | heq
      · exact h.dead hmem
      · cases heq
  · have hsize := h.size_le
    refine inv_proceed (by exact hcall) ?_ (fun hdown => ?_) (by exact h.dead) ctxErr
    · show s.pool.size - 1 ≤ s.pool.cap
      omega
    · have hbooks := h.balance hdown
      show s.pool.size - 1 + s.cancelledStored + (1 : Nat) = s.idle + s.unstored
      omega

/-- `Store` keeps the books, but for the pipe of a done context: `size` goes down although nothing
was counted. -/
theorem inv_putBack {handle : Handle} (hcall : s.calls[i]? = some (.holding handle)) (h : PoolInv s) :
    PoolInv (s.putBack i handle) := by
  have herase := unstored_eraseIdx hcall
  have hspec := s.pool.store_spec s.wires handle
  have hdead : .holding .dead ∈ s.calls.eraseIdx i → s.pool.down = true := fun hmem =>
    h.dead (mem_of_mem_eraseIdx hmem)
  refine ⟨?_, fun hdown => ?_, fun hmem => hspec.down.trans (hdead hmem)⟩
  · show (s.pool.store s.wires handle).1.size ≤ (s.pool.store s.wires handle).1.cap
    rw [hspec.cap]
    exact Int.le_trans hspec.size_le h.size_le
  · have hup : s.pool.down = false := hspec.down.symm.trans hdown
    have hbooks := h.balance hup
    have hmoved := hspec.balance
    unfold idle at hbooks
    show (s.pool.store s.wires handle).1.size + ((s.putBack i handle).cancelledStored : Int) =
      ((s.pool.store s.wires handle).1.list.length : Int) +
        ((s.calls.eraseIdx i).countP PoolCall.counted : Nat)
    match handle with
    | .made v =>
      change _ + 1 = _ at herase
      show _ + (s.cancelledStored : Int) = _
      omega
    | .cancelled err =>
      change _ + 0 = _ at herase
      show _ + ((s.cancelledStored + 1 : Nat) : Int) = _
      omega
    | .dead =>
      rw [h.dead (mem_of_getElem? hcall)] at hup
      cases hup

theorem inv_removeIdleConns (h : PoolInv s) : PoolInv { s with
      pool := (s.pool.removeIdleConns s.wires).1
      wires := (s.pool.removeIdleConns s.wires).2 } := by
  have hsize := h.size_le
  refine ⟨?_, fun hdown => ?_, h.dead⟩
  · show s.pool.size - ((s.pool.list.take _).length : Nat) ≤ s.pool.cap
    omega
  · have hbooks := h.balance hdown
    have hlen : (s.pool.list.drop (s.pool.list.length - min s.pool.minSize s.pool.list.length)).length +
        (s.pool.list.take (s.pool.list.length - min s.pool.minSize s.pool.list.length)).length =
          s.pool.list.length := by
      rw [length_drop, length_take]
      omega
    unfold idle at hbooks
    show s.pool.size - ((s.pool.list.take _).length : Nat) + (s.cancelledStored : Int) =
      ((s.pool.list.drop _).length : Int) + (s.unstored : Int)
    omega

theorem inv_step {s' : PoolSystem} {a : PoolAction} (h : PoolInv s) (hstep : s.step a = some s') :
    PoolInv s' := by
  cases a with
  | enter =>
    cases hstep
    refine ⟨h.size_le, fun hdown => ?_, fun hmem => h.dead (by simpa using hmem)⟩
    have hbooks := h.balance hdown
    have hsame : (s.calls ++ [PoolCall.entering]).countP PoolCall.counted = s.unstored := by
      rw [countP_append]
      rfl
    show s.pool.size + (s.cancelledStored : Int) = (s.idle : Int) + (countP _ _ : Nat)
    rw [hsame, hbooks]
  | proceed i ctxErr =>
    dsimp only [step] at hstep
    split at hstep
    · rename_i hcall
      cases hstep
      refine inv_proceed hcall h.size_le (fun hdown => ?_) h.dead ctxErr
      have hbooks := h.balance hdown
      show s.pool.size + s.cancelledStored + (0 : Nat) = s.idle + s.unstored
      omega
    · cases hstep
  | made i w ctxErr =>
    dsimp only [step] at hstep
    split at hstep
    · rename_i hcall
      cases hstep
      exact inv_finishMake hcall h w ctxErr
    · cases hstep
  | store i =>
    dsimp only [step] at hstep
    split at hstep
    · rename_i handle hcall
      cases hstep
      exact inv_putBack hcall h
    · cases hstep
  | breaks v err =>
    cases hstep
    exact ⟨h.size_le, h.balance, h.dead⟩
  | fires v =>
    cases hstep
    exact ⟨h.size_le, h.balance, h.dead⟩
  | removeIdleConns =>
    cases hstep
    exact inv_removeIdleConns h
  | close =>
    cases hstep
    exact ⟨h.size_le, fun hdown => absurd hdown (by simp), fun _ => rfl⟩

end PoolSystem

/-! ## Runs -/

/-- In every run of calls on a pool that is not closed, the books are right if and only if no pipe
of a done context was given to `Store`. -/
theorem pool_accounted_iff {cap : Int} {cleanup minSize : Nat} {actions : List PoolAction}
    {s : PoolSystem}
    (hrun : run PoolSystem.step { pool := newPool cap cleanup minSize } actions = some s)
    (hup : s.pool.down = false) : s.Accounted ↔ s.cancelledStored = 0 := by
  have hinit : PoolInv { pool := newPool cap cleanup minSize } :=
    ⟨Int.natCast_nonneg _, fun _ => rfl, fun hmem => by cases hmem⟩
  have hinv : PoolInv s :=
    run_invariant PoolSystem.step (fun _ _ _ => PoolSystem.inv_step) hinit hrun
  have hbooks := hinv.balance hup
  have hsize := hinv.size_le
  constructor
  · intro haccounted
    have := haccounted.size_eq
    omega
  · intro hnone
    exact ⟨by omega, by omega, by omega⟩

def reuse : List PoolAction :=
  [.enter, .proceed 0 fun _ => none, .made 0 {} fun _ => none, .store 0, .enter,
    .proceed 0 fun _ => none]

def reused : PoolSystem :=
  { pool := { newPool 1 0 0 with size := 1 }, wires := [{}], calls := [.holding (.made 0)] }

theorem pool_accounted_iff_reuse : reused.Accounted := by
  have hrun : run PoolSystem.step { pool := newPool 1 0 0 } reuse = some reused := by decide
  exact (pool_accounted_iff hrun rfl).mpr rfl

def cancelThenTwo : List PoolAction :=
  [.enter, .proceed 0 fun _ => some .canceled, .store 0,
    .enter, .proceed 0 fun _ => none, .made 0 {} fun _ => none,
    .enter, .proceed 1 fun _ => none, .made 1 {} fun _ => none]

/-- A pool for one wire ends up with two of them in use: the cancelled call has brought `size` down
to -1. -/
theorem cancelled_acquire_exceeds_cap :
    ((run PoolSystem.step { pool := newPool 1 0 0 } (cancelThenTwo.take 3)).map
      fun s => (s.pool.size, s.idle + s.unstored)) = some (-1, 0) ∧
    ((run PoolSystem.step { pool := newPool 1 0 0 } cancelThenTwo).map
      fun s => (s.pool.cap, s.pool.size, s.idle + s.unstored)) = some (1, 1, 2) := by
  decide

end Rueidis
