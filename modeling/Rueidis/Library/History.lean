import Mathlib.Data.List.Basic

/-!
# Histories

A history is a list of events, the latest at its end.  `Separated` is the law of requests that are
answered one at a time: between two requests there is an answer, or the service had ended.
-/

namespace History

open List

variable {α : Type*} {log l₁ l₂ : List α} {e x : α}

theorem snoc_eq_append_cons (h : log ++ [e] = l₁ ++ x :: l₂) :
    (l₂ = [] ∧ e = x ∧ log = l₁) ∨ ∃ l, l₂ = l ++ [e] ∧ log = l₁ ++ x :: l := by
  rcases eq_nil_or_concat l₂ with rfl | ⟨l, y, rfl⟩
  · obtain ⟨hl, he⟩ := append_inj' h rfl
    exact .inl ⟨rfl, (cons.inj he).1, hl⟩
  · rw [concat_eq_append, ← cons_append, ← append_assoc] at h
    obtain ⟨hl, he⟩ := append_inj' h rfl
    rw [(cons.inj he).1, concat_eq_append]
    exact .inr ⟨l, rfl, hl⟩

theorem getElem?_snoc_iff (l : List α) (a b : α) (k : Nat) :
    (l ++ [a])[k]? = some b ↔ l[k]? = some b ∨ (k = l.length ∧ a = b) := by
  rw [getElem?_append]
  split
  · simp
    omega
  · rw [getElem?_eq_none (by omega : l.length ≤ k), getElem?_singleton]
    split <;> simp <;> omega

theorem getElem?_snoc_both {β : Type*} {l : List α} {m : List β} (hlen : l.length = m.length)
    {a x : α} {b y : β} {k : Nat} (hx : (l ++ [a])[k]? = some x) (hy : (m ++ [b])[k]? = some y) :
    (l[k]? = some x ∧ m[k]? = some y) ∨ a = x ∧ b = y := by
  rcases (getElem?_snoc_iff ..).mp hx with hx | ⟨hk, hax⟩
  · have hlt := (List.getElem?_eq_some_iff.mp hx).1
    exact .inl ⟨hx, ((getElem?_snoc_iff ..).mp hy).resolve_right fun h => by omega⟩
  · refine .inr ⟨hax, ((getElem?_snoc_iff ..).mp hy).elim (fun hy => ?_) (·.2)⟩
    have hlt := (List.getElem?_eq_some_iff.mp hy).1
    omega

theorem filterMap_snoc {β : Type*} (f : α → Option β) (l : List α) (e : α) :
    (l ++ [e]).filterMap f = l.filterMap f ++ (f e).toList := by
  rw [filterMap_append]
  cases h : f e with
  | none => rw [filterMap_cons_none h, filterMap_nil]; rfl
  | some b => rw [filterMap_cons_some h, filterMap_nil]; rfl

theorem filterMap_snoc_none {β : Type*} {f : α → Option β} {e : α} (he : f e = none) (l : List α) :
    (l ++ [e]).filterMap f = l.filterMap f := by
  rw [filterMap_snoc, he]
  exact append_nil _

/-! ## Requests and answers -/

section Requests

variable (Request Answer End : α → Prop)

def Answered (before after : List α) : Prop :=
  (∃ e ∈ after, Answer e) ∨ ∃ e ∈ before ++ after, End e

def AllAnswered (log : List α) : Prop :=
  ∀ before x after, log = before ++ x :: after → Request x → Answered Answer End before after

def Separated (log : List α) : Prop :=
  ∀ before x between y after, log = before ++ x :: (between ++ y :: after) → Request x →
    Request y → Answered Answer End before between

variable {Request Answer End}

theorem Answered.snoc {before after : List α} (h : Answered Answer End before after) (e : α) :
    Answered Answer End before (after ++ [e]) := by
  rcases h with ⟨x, hx, hx'⟩ | ⟨x, hx, hx'⟩
  · exact .inl ⟨x, mem_append_left _ hx, hx'⟩
  · refine .inr ⟨x, ?_, hx'⟩
    rw [← append_assoc]
    exact mem_append_left _ hx

theorem allAnswered_nil : AllAnswered Request Answer End ([] : List α) := by
  intro before x after h
  exact absurd h (by simp)

theorem separated_nil : Separated Request Answer End ([] : List α) := by
  intro before x between y after h
  exact absurd h (by simp)

namespace AllAnswered

theorem snoc (h : AllAnswered Request Answer End log) (he : ¬ Request e) :
    AllAnswered Request Answer End (log ++ [e]) := by
  intro before x after hlog hx
  rcases snoc_eq_append_cons hlog with ⟨-, rfl, -⟩ | ⟨l, rfl, hold⟩
  · exact absurd hx he
  · exact (h before x l hold hx).snoc e

theorem snoc_answer (hr : ¬ Request e) (he : Answer e) :
    AllAnswered Request Answer End (log ++ [e]) := by
  intro before x after hlog hx
  rcases snoc_eq_append_cons hlog with ⟨-, rfl, -⟩ | ⟨l, rfl, -⟩
  · exact absurd hx hr
  · exact .inl ⟨e, mem_append_right _ mem_cons_self, he⟩

theorem of_end (h : ∃ e ∈ log, End e) (hr : ∀ x ∈ log, End x → ¬ Request x) :
    AllAnswered Request Answer End log := by
  obtain ⟨e, he, hend⟩ := h
  intro before x after hlog hx
  refine .inr ⟨e, ?_, hend⟩
  have hne : e ≠ x := by
    rintro rfl
    exact hr e he hend hx
  rw [hlog] at he
  rcases mem_append.mp he with he | he
  · exact mem_append_left _ he
  · exact mem_append_right _ ((mem_cons.mp he).resolve_left hne)

end AllAnswered

theorem Separated.snoc (h : Separated Request Answer End log)
    (he : Request e → AllAnswered Request Answer End log) :
    Separated Request Answer End (log ++ [e]) := by
  intro before x between y after hlog hx hy
  rw [← cons_append, ← append_assoc] at hlog
  rcases snoc_eq_append_cons hlog with ⟨-, rfl, hold⟩ | ⟨l, rfl, hold⟩
  · exact he hy before x between hold hx
  · apply h before x between y l _ hx hy
    rw [hold, append_assoc, cons_append]

end Requests

/-! ## Since an event -/

def Since (log : List α) (e : α) (Later : α → Prop) : Prop :=
  ∃ before after, log = before ++ e :: after ∧ ∀ x ∈ after, ¬ Later x

variable {Later : α → Prop}

theorem since_self : Since (log ++ [e]) e Later := ⟨log, [], rfl, nofun⟩

theorem Since.snoc (h : Since log e Later) (hx : ¬ Later x) : Since (log ++ [x]) e Later := by
  obtain ⟨before, after, rfl, hafter⟩ := h
  refine ⟨before, after ++ [x], by simp, ?_⟩
  intro y hy
  rcases mem_append.mp hy with hy | hy
  · exact hafter y hy
  · rw [mem_singleton.mp hy]
    exact hx

/-! ## The latest event of a key -/

section Latest

variable {κ : Type*} [DecidableEq κ] (key : α → κ)

def latest (log : List α) (k : κ) : Option α := (log.filter fun e => key e = k).getLast?

variable {key} {es : List α}

theorem latest_append_of_notMem {k : κ} (h : k ∉ es.map key) :
    latest key (log ++ es) k = latest key log k := by
  have hnone : es.filter (fun e => key e = k) = [] := by
    apply filter_eq_nil_iff.mpr
    intro e he heq
    exact h (mem_map.mpr ⟨e, he, of_decide_eq_true heq⟩)
  rw [latest, filter_append, hnone, append_nil]
  rfl

theorem latest_append_of_mem (hnodup : (es.map key).Nodup) (he : e ∈ es) :
    latest key (log ++ es) (key e) = some e := by
  obtain ⟨pre, post, rfl⟩ := append_of_mem he
  rw [map_append, map_cons] at hnodup
  have hpost : key e ∉ post.map key := (nodup_cons.mp (nodup_append.mp hnodup).2.1).1
  have hsplit : log ++ (pre ++ e :: post) = (log ++ pre ++ [e]) ++ post := by simp
  rw [hsplit, latest_append_of_notMem hpost, latest, filter_append,
    filter_cons_of_pos (by simp), filter_nil, getLast?_append]
  rfl

end Latest

end History
