import Mathlib.Logic.Relation
import Rueidis.Pipe.ReadLoop

/-!
# Runs of the read loop

A run interleaves the turns of the loop with what happens around it: calls are written and queued,
bytes arrive, and callers work on the cache store.
-/

namespace Rueidis

section Reachable

variable {σ : Type} (cfg : PipeConfig) (store : CacheStore σ)

/-- One step of a run; `ok` restricts the states in which the loop takes a turn. -/
inductive LoopStep (ok : ReadLoop σ → Prop) : ReadLoop σ → ReadLoop σ → Prop where
  | turn (st : ReadLoop σ) (env : Env) (hok : ok st)
      (hnext : (readStep cfg store env st).flow = .next) :
      LoopStep ok st (readStep cfg store env st).st
  | written (st : ReadLoop σ) (call : Call) : LoopStep ok st { st with queue := st.queue ++ [call] }
  | arrived (st : ReadLoop σ) (bs : Bytes) : LoopStep ok st { st with r := st.r ++ bs }
  | cached (st : ReadLoop σ) (c c' : σ) (hc : st.cache = some c) :
      LoopStep ok st { st with cache := some c' }

def Reachable (ok : ReadLoop σ → Prop) (st : ReadLoop σ) : Prop :=
  ∃ cache, Relation.ReflTransGen (LoopStep cfg store ok) { cache := cache } st

/-- What holds between two turns: no push is half handled, and only a batch has several commands. -/
structure LoopInv (st : ReadLoop σ) : Prop where
  prply : st.prply = false
  unsub : st.unsub = false
  ff : st.ff ≤ st.multi.length
  one : st.batch = false → st.multi.length ≤ 1

structure MidInv (st : ReadLoop σ) : Prop where
  unsub : st.prply = false → st.unsub = false
  ff : st.ff ≤ st.multi.length
  one : st.batch = false → st.multi.length ≤ 1

variable {st : ReadLoop σ} {msg : RedisMessage} {t : Turn σ}

theorem MidInv.take (h : MidInv st) (call : Call) (queue : List Call) :
    MidInv (st.take call queue) := by
  cases call with
  | one cmd ch => exact ⟨h.unsub, Nat.zero_le _, fun _ => Nat.le_refl _⟩
  | multi cmds ch => exact ⟨h.unsub, Nat.zero_le _, by simp [ReadLoop.take]⟩

theorem Assigned.inv {effs : List Effect} (h : Assigned st msg effs t) (hst : MidInv st)
    (hnext : t.flow = .next) : LoopInv t.st := by
  cases h with
  | panics p => cases hnext
  | ignored hpush hunsub => exact ⟨rfl, rfl, hst.ff, hst.one⟩
  | subscribed cmd hcmd hpush hno =>
    have hlt : st.ff < st.multi.length := (List.getElem?_eq_some_iff.mp hcmd).1
    exact ⟨rfl, rfl, hlt, hst.one⟩
  | unsubPending cmd hcmd hpush hunsub =>
    have hlt : st.ff < st.multi.length := (List.getElem?_eq_some_iff.mp hcmd).1
    exact ⟨hpush, hst.unsub hpush, hlt, hst.one⟩
  | pong hpush hskip => exact ⟨hpush, hst.unsub hpush, hst.ff, hst.one⟩
  | replied cmd hcmd hpush hskip =>
    have hlt : st.ff < st.multi.length := (List.getElem?_eq_some_iff.mp hcmd).1
    exact ⟨hpush, hst.unsub hpush, hlt, hst.one⟩

theorem Dispatched.inv {env : Env} {effs : List Effect} (h : Dispatched store env st msg effs t)
    (hst : MidInv st) (hpong : st.prply = true → (isUnsubReply msg).1 = false)
    (hnext : t.flow = .next) : LoopInv t.st := by
  cases h with
  | idlePanics hff p => cases hnext
  | idleIgnored hff hunsub => exact ⟨rfl, rfl, Nat.le_refl _, fun _ => Nat.zero_le _⟩
  | idlePong hff hunsub hp =>
    have hprply : st.prply = false := by
      by_contra hc
      rw [Bool.not_eq_false] at hc
      rw [hpong hc] at hp
      cases hp
    exact ⟨hprply, hunsub, Nat.le_refl _, fun _ => Nat.zero_le _⟩
  | taken hff call queue hqueue ht => exact ht.inv (hst.take call queue) hnext
  | commitPanics hff p => cases hnext
  | committed hff m hm ht => exact ht.inv ⟨hst.unsub, hst.ff, hst.one⟩ hnext

theorem exitWith_flow (env : Env) (st : ReadLoop σ) (e : ReadErr) (effs : List Effect) :
    (exitWith env st e effs).flow ≠ .next := by
  unfold exitWith
  split <;> simp

theorem isUnsubReply_of_isNotification (hshape : msg.Shaped) (hn : isNotification msg.values = true) :
    (isUnsubReply msg).1 = false := by
  match hv : msg.values with
  | [] | [_] =>
    rw [hv] at hn
    cases hn
  | v0 :: v1 :: rest =>
    have harray : msg.array ≠ none := by
      intro h
      simp [RedisMessage.values, h] at hv
    obtain ⟨hbytes, htyp⟩ := hshape.resolve_left harray
    have hstring : msg.string = [] := by rw [RedisMessage.string, hbytes]; rfl
    have hpong : v0.string ≠ lit "pong" := by
      intro h
      rw [hv] at hn
      dsimp only [isNotification] at hn
      rw [h, show pushKind (lit "pong") = .other by decide] at hn
      cases hn
    unfold isUnsubReply
    rw [if_neg (fun h => htyp h.1), hstring, hv]
    simpa using ⟨by decide, hpong⟩

theorem Stepped.inv {env : Env} (h : Stepped cfg store env st t) (hst : LoopInv st)
    (hnext : t.flow = .next) : LoopInv t.st := by
  cases h with
  | failed e r hread => exact absurd hnext (exitWith_flow _ _ _ _)
  | handled msg r hread hpush skip => exact ⟨rfl, rfl, hst.ff, hst.one⟩
  | notified msg r hread hpush hn hskip unsub ht =>
    refine ht.inv store ⟨by simp, hst.ff, hst.one⟩ (fun _ => ?_) hnext
    exact isUnsubReply_of_isNotification (readNextMessage_shaped hread) hn
  | repairFailed msg r r' hread hpush e => exact absurd hnext (exitWith_flow _ _ _ _)
  | repaired msg r r' hread hpush hver more hmore ht =>
    exact ht.inv store ⟨fun _ => hst.unsub, hst.ff, hst.one⟩ (by simp [hst.prply]) hnext
  | answered msg r hread hpush hver ht =>
    exact ht.inv store ⟨fun _ => hst.unsub, hst.ff, hst.one⟩ (by simp [hst.prply]) hnext

theorem reachable_inv {ok : ReadLoop σ → Prop} (h : Reachable cfg store ok st) : LoopInv st := by
  obtain ⟨cache, hrun⟩ := h
  induction hrun with
  | refl => exact ⟨rfl, rfl, Nat.le_refl _, fun _ => Nat.zero_le _⟩
  | tail _ hstep ih =>
    cases hstep with
    | turn env hok hnext => exact (readStep_cases cfg store env _).inv cfg store ih hnext
    | written call => exact ⟨ih.prply, ih.unsub, ih.ff, ih.one⟩
    | arrived bs => exact ⟨ih.prply, ih.unsub, ih.ff, ih.one⟩
    | cached c c' hc => exact ⟨ih.prply, ih.unsub, ih.ff, ih.one⟩

end Reachable

end Rueidis
