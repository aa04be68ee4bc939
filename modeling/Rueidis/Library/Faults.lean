import Mathlib.Data.List.Basic

/-!
# Computations that may fault

A computation ends in a value, in an error that it reports to its caller, or in a fault that no
caller catches, such as an index outside a list.
-/

namespace Faults

open List

inductive Failure (ε π : Type) where
  | err (e : ε)
  | panic (p : π)
deriving DecidableEq, Repr

abbrev Fallible (ε π α : Type) := Except (Failure ε π) α

variable {ε π α β σ : Type}

def panics : Fallible ε π α → Bool
  | .error (.panic _) => true
  | _ => false

def reports : Fallible ε π α → Bool
  | .error (.err _) => true
  | _ => false

@[simp] theorem panics_ok (a : α) : panics (.ok a : Fallible ε π α) = false := rfl
@[simp] theorem panics_err (e : ε) : panics (.error (.err e) : Fallible ε π α) = false := rfl

def lift : Except ε α → Fallible ε π α
  | .ok a => .ok a
  | .error e => .error (.err e)

def ignored (a : α) : Fallible ε π α → Fallible ε π α
  | .error (.err _) => .ok a
  | x => x

def get (fault : π) (xs : List α) (i : Nat) : Fallible ε π α :=
  match xs[i]? with
  | some a => .ok a
  | none => .error (.panic fault)

/-- A loop over the positions 0, 2, 4, … of a list.  The body gets the element there and, as a
computation that it may run or not, the element after it. -/
def eachPair (fault : π) (body : σ → α → Fallible ε π α → Fallible ε π σ) :
    σ → List α → Fallible ε π σ
  | s, [] => .ok s
  | s, [k] => body s k (.error (.panic fault))
  | s, k :: v :: rest => body s k (.ok v) >>= fun s => eachPair fault body s rest

/-! ## Sequencing -/

theorem panics_error (e : Failure ε π) :
    panics (.error e : Fallible ε π α) = panics (.error e : Fallible ε π β) := by
  cases e <;> rfl

variable {x : Fallible ε π α} {f : α → Fallible ε π β} {xs : List α}

theorem safe_bind (hx : panics x = false) (hf : ∀ a, panics (f a) = false) :
    panics (x >>= f) = false := by
  cases x with
  | ok a => exact hf a
  | error e =>
    have he : panics ((.error e : Fallible ε π α) >>= f) = panics (.error e : Fallible ε π α) :=
      panics_error e
    rw [he]
    exact hx

theorem panics_bind (hx : panics x = true) : panics (x >>= f) = true := by
  cases x with
  | ok a => exact nomatch hx
  | error e => exact (panics_error e).trans hx

theorem panics_bind_total {b : Bool} (hx : reports x = false) (hf : ∀ a, panics (f a) = b) :
    panics (x >>= f) = (panics x || b) := by
  cases x with
  | ok a => exact hf a
  | error e =>
    cases e with
    | err e => exact nomatch hx
    | panic p => rfl

@[simp] theorem panics_map (g : α → β) (x : Fallible ε π α) : panics (g <$> x) = panics x := by
  cases x with
  | ok a => rfl
  | error e => exact panics_error e

@[simp] theorem panics_lift (x : Except ε α) : panics (lift x : Fallible ε π α) = false := by
  cases x <;> rfl

theorem ignored_eq_ok (a : α) (hx : panics x = false) : ∃ b, ignored a x = .ok b := by
  cases x with
  | ok b => exact ⟨b, rfl⟩
  | error e =>
    cases e with
    | err e => exact ⟨a, rfl⟩
    | panic p => exact nomatch hx

theorem panics_get {fault : π} {i : Nat} (h : i < xs.length) :
    panics (get fault xs i : Fallible ε π α) = false := by
  unfold get
  rw [getElem?_eq_getElem h]
  rfl

theorem exists_ok (hr : reports x = false) (hp : panics x = false) : ∃ a, x = .ok a := by
  cases x with
  | ok a => exact ⟨a, rfl⟩
  | error e =>
    cases e with
    | err e => exact nomatch hr
    | panic p => exact nomatch hp

/-! ## Loops -/

theorem panics_mapM_cons {x : α} {b : β} (hx : f x = .ok b) (xs : List α) :
    panics ((x :: xs).mapM f) = panics (xs.mapM f) := by
  rw [mapM_cons, hx]
  exact panics_map (cons b) (xs.mapM f)

/-- A loop over a list stops at the first element that gives no value.  It does not fault exactly
when every element that faults stands behind one that reports an error. -/
theorem safe_mapM_iff : panics (xs.mapM f) = false ↔
      ∀ front a back, xs = front ++ a :: back → panics (f a) = true →
        ∃ x ∈ front, reports (f x) = true := by
  induction xs with
  | nil =>
    refine ⟨fun _ front a back h => ?_, fun _ => rfl⟩
    cases front <;> cases h
  | cons x xs ih =>
    cases hx : f x with
    | ok b =>
      rw [panics_mapM_cons hx, ih]
      constructor
      · intro h front a back hxs ha
        cases front with
        | nil =>
          cases hxs
          rw [hx] at ha
          exact nomatch ha
        | cons y front =>
          cases hxs
          obtain ⟨z, hz, hr⟩ := h front a back rfl ha
          exact ⟨z, mem_cons_of_mem _ hz, hr⟩
      · intro h front a back hxs ha
        obtain ⟨z, hz, hr⟩ := h (x :: front) a back (by rw [hxs, cons_append]) ha
        rcases mem_cons.mp hz with rfl | hz
        · rw [hx] at hr
          exact nomatch hr
        · exact ⟨z, hz, hr⟩
    | error e =>
      rw [mapM_cons, hx]
      cases e with
      | err e =>
        refine ⟨fun _ front a back hxs ha => ?_, fun _ => rfl⟩
        cases front with
        | nil =>
          cases hxs
          rw [hx] at ha
          exact nomatch ha
        | cons y front =>
          cases hxs
          refine ⟨x, mem_cons_self, ?_⟩
          rw [hx]
          rfl
      | panic p =>
        refine ⟨nofun, fun h => ?_⟩
        obtain ⟨z, hz, -⟩ := h [] x xs rfl (by rw [hx]; rfl)
        exact nomatch hz

theorem safe_mapM (h : ∀ a ∈ xs, panics (f a) = false) : panics (xs.mapM f) = false := by
  apply safe_mapM_iff.mpr
  rintro front a back rfl ha
  rw [h a (mem_append_right _ mem_cons_self)] at ha
  cases ha

theorem panics_mapM_of_mem {a : α} (hr : ∀ x ∈ xs, reports (f x) = false) (ha : a ∈ xs)
    (hp : panics (f a) = true) : panics (xs.mapM f) = true := by
  by_contra hsafe
  obtain ⟨front, back, rfl⟩ := append_of_mem ha
  obtain ⟨x, hx, hrx⟩ := safe_mapM_iff.mp (Bool.eq_false_iff.mpr hsafe) front a back rfl hp
  rw [hr x (mem_append_left _ hx)] at hrx
  cases hrx

theorem mapM_total (h : ∀ a ∈ xs, ∃ b, f a = .ok b) : ∃ bs, xs.mapM f = .ok bs := by
  induction xs with
  | nil => exact ⟨[], rfl⟩
  | cons a xs ih =>
    obtain ⟨b, hb⟩ := h a mem_cons_self
    obtain ⟨bs, hbs⟩ := ih fun x hx => h x (mem_cons_of_mem _ hx)
    refine ⟨b :: bs, ?_⟩
    rw [mapM_cons, hb]
    rw [hbs]
    rfl

theorem safe_foldlM {f : σ → α → Fallible ε π σ} (h : ∀ s, ∀ a ∈ xs, panics (f s a) = false) (s : σ) :
    panics (xs.foldlM f s) = false := by
  induction xs generalizing s with
  | nil => rfl
  | cons a xs ih =>
    rw [foldlM_cons]
    apply safe_bind (h s a mem_cons_self)
    intro s'
    exact ih (fun s x hx => h s x (mem_cons_of_mem _ hx)) s'

section Pairs

variable {fault : π} {body : σ → α → Fallible ε π α → Fallible ε π σ}

theorem safe_eachPair (h : ∀ s k v, panics (body s k (.ok v)) = false) (s : σ) (xs : List α)
    (heven : xs.length % 2 = 0) : panics (eachPair fault body s xs) = false := by
  induction s, xs using eachPair.induct with
  | case1 s => rfl
  | case2 s k => simp at heven
  | case3 s k v rest ih =>
    apply safe_bind (h s k v)
    intro s'
    apply ih
    rw [length_cons, length_cons] at heven
    omega

variable (hok : ∀ s k v, ∃ s', body s k (.ok v) = .ok s')

include hok

/-- A loop whose body gives a value whenever it has one to read faults only at the end of a list of
odd length, when the body wants to read past it. -/
theorem panics_eachPair_iff {reads : α → Bool}
    (hlast : ∀ s k, panics (body s k (.error (.panic fault))) = reads k) (s : σ) (xs : List α) :
    panics (eachPair fault body s xs) = true ↔
      xs.length % 2 = 1 ∧ ∃ k, xs.getLast? = some k ∧ reads k = true := by
  induction s, xs using eachPair.induct with
  | case1 s => simp [eachPair]
  | case2 s k => simp [eachPair, hlast]
  | case3 s k v rest ih =>
    obtain ⟨s', hs⟩ := hok s k v
    rw [eachPair, hs]
    refine Iff.trans (ih s') ?_
    have hlen : (k :: v :: rest).length % 2 = rest.length % 2 := by
      rw [length_cons, length_cons]
      omega
    rw [hlen]
    cases rest with
    | nil => simp
    | cons a rest => simp

theorem reports_eachPair (hlast : ∀ s k, reports (body s k (.error (.panic fault))) = false) (s : σ)
    (xs : List α) : reports (eachPair fault body s xs) = false := by
  induction s, xs using eachPair.induct with
  | case1 s => rfl
  | case2 s k => exact hlast s k
  | case3 s k v rest ih =>
    obtain ⟨s', hs⟩ := hok s k v
    rw [eachPair, hs]
    exact ih s'

end Pairs

end Faults
