import Mathlib.Data.List.Nodup

/-! Threads in a list, one of which is replaced by what it has become. -/

namespace Threads

open List

variable {α : Type} {l : List α} {i : Nat} {a b : α} {P : α → Prop} {β : Type}

theorem mem_set_self (h : l[i]? = some a) (b : α) : b ∈ l.set i b :=
  List.mem_set (List.getElem?_eq_some_iff.mp h).1 b

theorem set_self (h : l[i]? = some a) : l.set i a = l := by
  obtain ⟨hlt, rfl⟩ := List.getElem?_eq_some_iff.mp h
  exact List.set_getElem_self hlt

theorem forall_mem_set (h : ∀ x ∈ l, P x) (hb : P b) : ∀ x ∈ l.set i b, P x := by
  intro x hx
  rcases mem_or_eq_of_mem_set hx with hx | rfl
  · exact h x hx
  · exact hb

theorem of_getElem?_set {j : Nat} {x : α} (h : (l.set i b)[j]? = some x) :
    (j = i ∧ x = b) ∨ (j ≠ i ∧ l[j]? = some x) := by
  rw [getElem?_set] at h
  split at h
  · rename_i hij
    split at h
    · exact .inl ⟨hij.symm, (Option.some.inj h).symm⟩
    · cases h
  · rename_i hij
    exact .inr ⟨fun heq => hij heq.symm, h⟩

theorem getElem?_set_of (h : l[i]? = some a) {j : Nat} (hj : ∃ x, l[j]? = some x ∧ P x)
    (hb : j = i → P b) : ∃ x, (l.set i b)[j]? = some x ∧ P x := by
  rw [getElem?_set]
  by_cases hij : i = j
  · rw [if_pos hij, if_pos (List.getElem?_eq_some_iff.mp h).1]
    exact ⟨b, rfl, hb hij.symm⟩
  · rw [if_neg hij]
    exact hj

theorem exists_mem_set (h : l[i]? = some a) (hex : ∃ x ∈ l, P x) (b : α) :
    P a ∨ ∃ x ∈ l.set i b, P x := by
  by_cases ha : P a
  · exact .inl ha
  · obtain ⟨x, hmem, hx⟩ := hex
    obtain ⟨j, hj⟩ := mem_iff_getElem?.mp hmem
    refine .inr ⟨x, ?_, hx⟩
    apply mem_of_getElem? (i := j)
    rw [getElem?_set, if_neg, hj]
    intro hij
    subst hij
    cases h.symm.trans hj
    exact ha hx

theorem countP_replaced (p : α → Bool) (h : l[i]? = some a) (b : α) :
    (l.set i b).countP p + (if p a then 1 else 0) = l.countP p + if p b then 1 else 0 := by
  obtain ⟨hlt, rfl⟩ := List.getElem?_eq_some_iff.mp h
  rw [List.countP_set hlt]
  by_cases hp : p l[i] = true
  · have hpos : 0 < l.countP p := List.countP_pos_iff.mpr ⟨l[i], List.getElem_mem hlt, hp⟩
    rw [if_pos hp]
    omega
  · rw [if_neg hp]
    omega

theorem split (h : l[i]? = some a) :
    ∃ pre post, l = pre ++ a :: post ∧ ∀ b, l.set i b = pre ++ b :: post := by
  obtain ⟨hlt, rfl⟩ := List.getElem?_eq_some_iff.mp h
  refine ⟨l.take i, l.drop (i + 1), ?_, ?_⟩
  · rw [List.getElem_cons_drop, List.take_append_drop]
  · intro b
    rw [List.set_eq_take_append_cons_drop, if_pos hlt]

theorem perm_front (rest : List β) (pre post : List α) (a : α) (f : α → List β) :
    (rest ++ (pre ++ a :: post).flatMap f).Perm ((rest ++ f a) ++ (pre ++ post).flatMap f) := by
  rw [append_assoc]
  apply Perm.append_left
  exact Perm.flatMap_right f perm_middle

theorem nodup_set {f : α → List β} {rest rest' : List β} (h : l[i]? = some a)
    (hsub : (rest' ++ f b).Subperm (rest ++ f a)) (hnodup : (rest ++ l.flatMap f).Nodup) :
    (rest' ++ (l.set i b).flatMap f).Nodup := by
  obtain ⟨pre, post, hsplit, hset⟩ := split h
  rw [hsplit, (perm_front rest pre post a f).nodup_iff, nodup_append] at hnodup
  rw [hset, (perm_front rest' pre post b f).nodup_iff, nodup_append]
  obtain ⟨xs, hperm, hsublist⟩ := hsub
  refine ⟨hperm.nodup_iff.mp (hnodup.1.sublist hsublist), hnodup.2.1, ?_⟩
  intro x hx
  exact hnodup.2.2 x (hsublist.subset (hperm.mem_iff.mpr hx))

theorem notMem_of_nodup {f : α → List β} {rest : List β} {pre post : List α}
    (hnodup : (rest ++ (pre ++ a :: post).flatMap f).Nodup) {x : α} (hx : x ∈ pre ++ post) {y : β}
    (hy : y ∈ f x) : y ∉ f a := by
  rw [(perm_front rest pre post a f).nodup_iff, nodup_append] at hnodup
  intro hmine
  exact hnodup.2.2 y (mem_append_right _ hmine) y (mem_flatMap.mpr ⟨x, hx, hy⟩) rfl

end Threads
