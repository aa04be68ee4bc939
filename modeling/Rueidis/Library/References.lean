import Rueidis.Library.Threads

/-! Objects that count their users. -/

namespace References

open List

variable {α β : Type} (count : β → Int) (uses : α → Nat → Bool)

variable {a : α} {γ : Nat} {f : β → β}

def Counted (objects : List β) (threads : List α) : Prop :=
  ∀ γ b, objects[γ]? = some b → count b = threads.countP (uses · γ)

variable {count uses} {objects : List β} {threads : List α}

variable (h : Counted count uses objects threads)

include h

theorem Counted.modify {threads' : List α} {d : Int} (hf : ∀ b, count (f b) = count b + d)
    (hself : (threads'.countP (uses · γ) : Int) = threads.countP (uses · γ) + d)
    (hother : ∀ γ', γ' ≠ γ → threads'.countP (uses · γ') = threads.countP (uses · γ')) :
    Counted count uses (objects.modify γ f) threads' := by
  intro γ' b hb
  by_cases hγ : γ' = γ
  · subst hγ
    rw [getElem?_modify_eq, Option.map_eq_map, Option.map_eq_some_iff] at hb
    obtain ⟨b₀, hb₀, rfl⟩ := hb
    rw [hf, h γ' b₀ hb₀, hself]
  · rw [getElem?_modify_ne f objects (Ne.symm hγ)] at hb
    rw [hother γ' hγ]
    exact h γ' b hb

theorem Counted.take (hf : ∀ b, count (f b) = count b + 1) (huses : ∀ γ', uses a γ' = (γ' == γ)) :
    Counted count uses (objects.modify γ f) (threads ++ [a]) := by
  apply h.modify hf
  · rw [countP_append, countP_singleton, huses, beq_self_eq_true, if_pos rfl]
    rfl
  · intro γ' hne
    rw [countP_append, countP_singleton, huses, beq_false_of_ne hne]
    rfl

theorem Counted.make {b : β} (hb : count b = 1) (huses : ∀ γ', uses a γ' = (γ' == objects.length))
    (hthere : ∀ x ∈ threads, uses x objects.length = false) :
    Counted count uses (objects ++ [b]) (threads ++ [a]) := by
  intro γ b' hb'
  rw [countP_append, countP_singleton, huses]
  rcases Nat.lt_trichotomy γ objects.length with hlt | heq | hgt
  · rw [getElem?_append_left hlt] at hb'
    rw [beq_false_of_ne (Nat.ne_of_lt hlt), h γ b' hb']
    rfl
  · subst heq
    rw [getElem?_concat_length] at hb'
    have hnone : threads.countP (uses · objects.length) = 0 := by
      apply countP_eq_zero.mpr
      intro x hx
      rw [hthere x hx]
      exact Bool.false_ne_true
    rw [← Option.some.inj hb', hb, hnone, beq_self_eq_true]
    rfl
  · rw [getElem?_eq_none (by rw [length_append, length_singleton]; omega)] at hb'
    cases hb'

theorem Counted.keep {i : Nat} {a' : α} (hi : threads[i]? = some a)
    (huses : ∀ γ, uses a' γ = uses a γ) : Counted count uses objects (threads.set i a') := by
  intro γ b hb
  have hcount := Threads.countP_replaced (uses · γ) hi a'
  rw [huses] at hcount
  rw [h γ b hb, Nat.add_right_cancel hcount]

theorem Counted.give {i : Nat} {a' : α} (hi : threads[i]? = some a)
    (hf : ∀ b, count (f b) = count b + -1) (huses : ∀ γ', uses a γ' = (γ' == γ))
    (huses' : ∀ γ', uses a' γ' = false) :
    Counted count uses (objects.modify γ f) (threads.set i a') := by
  apply h.modify hf
  · have hcount := Threads.countP_replaced (uses · γ) hi a'
    rw [huses, huses', beq_self_eq_true, if_pos rfl, if_neg Bool.false_ne_true] at hcount
    omega
  · intro γ' hne
    have hcount := Threads.countP_replaced (uses · γ') hi a'
    rw [huses, huses', beq_false_of_ne hne] at hcount
    exact Nat.add_right_cancel hcount

end References
