import Rueidis.Library.Machine
import Rueidis.Library.Threads

/-!
# Work that is done in rounds

A round starts tasks that have no item in common.  A task sends its items and marks some of them
afterwards; when the round is over, the work is finished or another round may follow.  Nothing that was
marked is sent again, as long as no round with a mark is followed by another.
-/

namespace Rounds

open List

variable {ι : Type}

structure Task (ι : Type) where
  all : List ι
  pending : List ι
  pending_sublist : pending.Sublist all

structure View (ι : Type) where
  tasks : List (Task ι)
  running : Bool
  returned : Bool

/-- What a step may do after `marked` was marked, with what it marks and sends itself. -/
inductive Step (marked : List ι) : View ι → View ι → (marks sends : List ι) → Prop where
  | launch {v : View ι} {tasks : List (Task ι)} (hidle : v.running = false)
      (hnodup : (tasks.flatMap (·.all)).Nodup) :
      Step marked v { v with tasks := tasks, running := true } [] []
  | act {v : View ι} {pre post : List (Task ι)} {t t' : Task ι} {marks sends : List ι}
      (hrunning : v.running = true) (htasks : v.tasks = pre ++ t :: post) (hall : t'.all = t.all)
      (hpending : t'.pending ⊆ t.pending) (hsends : sends ⊆ t.pending)
      (hmarks : (marks ++ t'.pending).Sublist t.all) :
      Step marked v { v with tasks := pre ++ t' :: post } marks sends
  | leave {v : View ι} (hmarked : marked = []) :
      Step marked v { v with tasks := [], running := false } [] []
  | finish {v : View ι} : Step marked v { v with returned := true } [] []

theorem Step.act_set {τ : Type} {task : τ → Task ι} {threads : List τ} {n : Nat} {g g' : τ}
    {v v' : View ι} {marked marks sends : List ι} (ht : threads[n]? = some g)
    (hrunning : v.running = true) (htasks : v.tasks = threads.map task)
    (hv : v' = { v with tasks := (threads.set n g').map task })
    (hall : (task g').all = (task g).all) (hpending : (task g').pending ⊆ (task g).pending)
    (hsends : sends ⊆ (task g).pending)
    (hmarks : (marks ++ (task g').pending).Sublist (task g).all) : Step marked v v' marks sends := by
  obtain ⟨pre, post, hsplit, hset⟩ := Threads.split ht
  rw [hv, hset, map_append, map_cons]
  refine Step.act hrunning ?_ hall hpending hsends hmarks
  rw [htasks, hsplit, map_append, map_cons]

structure Inv (marked : List ι) (v : View ι) : Prop where
  nodup : (v.tasks.flatMap (·.all)).Nodup
  quiet : ∀ i ∈ marked, ∀ t ∈ v.tasks, i ∉ t.pending
  fresh : v.running = false → marked = []

variable {marked marks sends : List ι} {v v' : View ι}

theorem Inv.step (h : Inv marked v) (hstep : Step marked v v' marks sends) :
    Inv (marked ++ marks) v' := by
  cases hstep with
  | launch hidle hnodup =>
    rw [h.fresh hidle]
    exact ⟨hnodup, forall_mem_nil _, fun hr => by cases hr⟩
  | @act pre post t t' _ _ hrunning htasks hall hpending _ hmarks =>
    have hnodup := h.nodup
    rw [htasks] at hnodup
    have hmem : ∀ u ∈ pre ++ post, u ∈ v.tasks := by
      intro u hu
      rw [htasks, perm_middle.mem_iff]
      exact mem_cons_of_mem _ hu
    have hsame : (pre ++ t' :: post).flatMap (·.all) = (pre ++ t :: post).flatMap (·.all) := by
      simp only [flatMap_append, flatMap_cons, hall]
    refine ⟨?_, ?_, ?_⟩
    · rw [hsame]
      exact hnodup
    · intro i hi u hu
      rw [perm_middle.mem_iff, mem_cons] at hu
      rcases mem_append.mp hi with hold | hnew
      · rcases hu with rfl | hother
        · intro hp
          apply h.quiet i hold t _ (hpending hp)
          rw [htasks]
          exact mem_append_right _ mem_cons_self
        · exact h.quiet i hold u (hmem u hother)
      · rcases hu with rfl | hother
        · have hown := (nodup_flatMap.mp hnodup).1 t
            (mem_append_right _ mem_cons_self)
          intro hp
          exact (nodup_append.mp (hown.sublist hmarks)).2.2 i hnew i hp rfl
        · intro hp
          rw [← nil_append (flatMap _ _)] at hnodup
          exact Threads.notMem_of_nodup hnodup hother (u.pending_sublist.subset hp)
            (hmarks.subset (mem_append_left _ hnew))
    · intro hr
      rw [hrunning] at hr
      cases hr
  | leave hmarked =>
    rw [hmarked]
    exact ⟨nodup_nil, forall_mem_nil _, fun _ => rfl⟩
  | finish =>
    rw [append_nil]
    exact ⟨h.nodup, h.quiet, h.fresh⟩

theorem Inv.notMem_of_sends (h : Inv marked v) (hstep : Step marked v v' marks sends) :
    ∀ i ∈ sends, i ∉ marked := by
  cases hstep with
  | @act pre post t t' _ _ _ htasks _ _ hsends _ =>
    intro i hi hmarked
    apply h.quiet i hmarked t _ (hsends hi)
    rw [htasks]
    exact mem_append_right _ mem_cons_self
  | launch => exact forall_mem_nil _
  | leave => exact forall_mem_nil _
  | finish => exact forall_mem_nil _

theorem Step.marks_eq_nil (hstep : Step marked v v' marks sends) (hr : v.running = false) :
    marks = [] := by
  cases hstep with
  | act hrunning =>
    rw [hrunning] at hr
    cases hr
  | launch => rfl
  | leave => rfl
  | finish => rfl

/-! ## Machines that are watched -/

structure Watched (σ ι : Type) where
  state : σ
  marked : List ι := []
  again : List ι := []

variable {σ α : Type} [DecidableEq ι] (step : σ → α → Option σ) (marks sends : σ → α → List ι)

def watch (w : Watched σ ι) (a : α) : Option (Watched σ ι) :=
  (step w.state a).map fun s =>
    { state := s
      marked := w.marked ++ marks w.state a
      again := w.again ++ (sends w.state a).filter (· ∈ w.marked) }

variable {step marks sends}

/-- The rule for watched machines: nothing marked is sent again, and what was marked is still `Kept`
when the steps of a running round keep it. -/
theorem watch_inv {Good : σ → Prop} {G : Watched σ ι → α → Prop} (view : σ → View ι)
    (Kept : σ → ι → Prop)
    (hgood : ∀ s a s', Good s → step s a = some s' → Good s')
    (hround : ∀ w a s', Good w.state → G w a → step w.state a = some s' →
      Step w.marked (view w.state) (view s') (marks w.state a) (sends w.state a))
    (hkept : ∀ s a s', Good s → step s a = some s' → (view s).running = true →
      (view s').running = true → (∀ i, Kept s i → Kept s' i) ∧ ∀ i ∈ marks s a, Kept s' i)
    {s : σ} (hs : Good s) (htasks : (view s).tasks = []) {as : List α} {w : Watched σ ι}
    (hguarded : Machine.Guarded (watch step marks sends) G { state := s } as)
    (hrun : Machine.run (watch step marks sends) { state := s } as = some w) :
    Good w.state ∧ w.again = [] ∧ ∀ i ∈ w.marked, Kept w.state i := by
  have hinv : Good w.state ∧ Inv w.marked (view w.state) ∧ w.again = [] ∧
      ∀ i ∈ w.marked, Kept w.state i := by
    apply Machine.run_invariant_guarded _ _ _ hguarded hrun
    · intro w a w' ⟨hw, hi, hagain, hmarked⟩ hg hstep
      obtain ⟨s', hs', rfl⟩ := Option.map_eq_some_iff.mp hstep
      have hkind := hround w a s' hw hg hs'
      have hi' := hi.step hkind
      refine ⟨hgood _ _ _ hw hs', hi', ?_, ?_⟩
      · rw [hagain, nil_append, filter_eq_nil_iff]
        intro i hsent
        rw [decide_eq_true_iff]
        exact hi.notMem_of_sends hkind i hsent
      · cases hr' : (view s').running with
        | false =>
          rw [hi'.fresh hr']
          exact forall_mem_nil _
        | true =>
          cases hr : (view w.state).running with
          | false =>
            rw [hi.fresh hr, hkind.marks_eq_nil hr]
            exact forall_mem_nil _
          | true =>
            obtain ⟨hold, hnew⟩ := hkept _ _ _ hw hs' hr hr'
            intro i hmem
            rcases mem_append.mp hmem with hmem | hmem
            · exact hold i (hmarked i hmem)
            · exact hnew i hmem
    · refine ⟨hs, ⟨?_, forall_mem_nil _, fun _ => rfl⟩, rfl, forall_mem_nil _⟩
      rw [htasks]
      exact nodup_nil
  exact ⟨hinv.1, hinv.2.2⟩

end Rounds
