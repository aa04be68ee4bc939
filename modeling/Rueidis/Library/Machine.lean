import Mathlib.Data.List.Basic

/-! Runs of a machine whose steps are functions of an action, and invariants of such runs. -/

namespace Machine

variable {σ α : Type} (step : σ → α → Option σ)

/-- The state after the actions; `none` when one of them was not enabled. -/
def run : σ → List α → Option σ
  | s, [] => some s
  | s, a :: as =>
    match step s a with
    | none => none
    | some t => run t as

variable {s s' : σ} {as : List α} {Inv : σ → Prop}

theorem run_cons_eq_some {a : α} :
    run step s (a :: as) = some s' ↔ ∃ t, step s a = some t ∧ run step t as = some s' := by
  rw [run]
  match step s a with
  | none => simp
  | some t => simp

theorem run_invariant_mem {C : α → Prop} (hstep : ∀ s a t, Inv s → C a → step s a = some t → Inv t)
    (hs : Inv s) (hall : ∀ a ∈ as, C a) (h : run step s as = some s') : Inv s' := by
  induction as generalizing s with
  | nil =>
    cases h
    exact hs
  | cons a as ih =>
    obtain ⟨t, ht, hrest⟩ := (run_cons_eq_some step).mp h
    have hmem := List.forall_mem_cons.mp hall
    exact ih (hstep s a t hs hmem.1 ht) hmem.2 hrest

theorem run_invariant (hstep : ∀ s a t, Inv s → step s a = some t → Inv t) (hs : Inv s)
    (h : run step s as = some s') : Inv s' :=
  run_invariant_mem step (C := fun _ => True) (fun s a t hs _ => hstep s a t hs) hs
    (fun _ _ => trivial) h

theorem exists_run {P : σ → Prop} [DecidablePred P] (s : σ) (as : List α)
    (h : (run step s as).any (fun s' => decide (P s')) = true) :
    ∃ s', run step s as = some s' ∧ P s' := by
  obtain ⟨s', hrun, hP⟩ := (Option.any_eq_true _ _).mp h
  exact ⟨s', hrun, of_decide_eq_true hP⟩

/-- Every action is taken in a state that meets its condition. -/
def Guarded (G : σ → α → Prop) : σ → List α → Prop
  | _, [] => True
  | s, a :: as => G s a ∧ ∀ t, step s a = some t → Guarded G t as

instance decidableGuarded (G : σ → α → Prop) [∀ s a, Decidable (G s a)] :
    ∀ s as, Decidable (Guarded step G s as)
  | _, [] => isTrue trivial
  | s, a :: as =>
    match h : step s a with
    | none =>
      decidable_of_iff (G s a) ⟨fun hg => ⟨hg, fun _ ht => nomatch h.symm.trans ht⟩, And.left⟩
    | some t =>
      have := decidableGuarded G t as
      decidable_of_iff (G s a ∧ Guarded step G t as)
        ⟨fun hg => ⟨hg.1, fun _ ht => Option.some.inj (h.symm.trans ht) ▸ hg.2⟩,
          fun hg => ⟨hg.1, hg.2 t h⟩⟩

theorem run_invariant_guarded {G : σ → α → Prop}
    (hstep : ∀ s a t, Inv s → G s a → step s a = some t → Inv t) (hs : Inv s)
    (hg : Guarded step G s as) (h : run step s as = some s') : Inv s' := by
  induction as generalizing s with
  | nil =>
    cases h
    exact hs
  | cons a as ih =>
    obtain ⟨t, ht, hrest⟩ := (run_cons_eq_some step).mp h
    exact ih (hstep s a t hs hg.1 ht) (hg.2 t ht) hrest

end Machine
