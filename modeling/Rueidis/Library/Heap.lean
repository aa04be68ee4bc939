import Mathlib.Logic.Function.Basic

/-! Objects behind pointers: a pointer is the number of its object. -/

/-- The objects that were made so far have the numbers below `next`. -/
structure Heap (α : Type) where
  get : Nat → α
  next : Nat

namespace Heap

variable {α : Type} (h : Heap α) (a : α) {i j : Nat}

def empty [Inhabited α] : Heap α := ⟨fun _ => default, 0⟩

def set (i : Nat) (a : α) : Heap α := { h with get := Function.update h.get i a }

def alloc (a : α) : Heap α := ⟨Function.update h.get h.next a, h.next + 1⟩

@[simp] theorem get_set_self : (h.set i a).get i = a := Function.update_self ..

theorem get_set_ne (hij : i ≠ j) : (h.set i a).get j = h.get j := Function.update_of_ne hij.symm ..

theorem proj_set {β : Type} {f : α → β} (hf : f a = f (h.get i)) (j : Nat) :
    f ((h.set i a).get j) = f (h.get j) := by
  by_cases hij : i = j
  · subst hij
    rw [get_set_self, hf]
  · rw [get_set_ne h a hij]

@[simp] theorem get_alloc_self : (h.alloc a).get h.next = a := Function.update_self ..

theorem get_alloc_ne (hi : i ≠ h.next) : (h.alloc a).get i = h.get i := Function.update_of_ne hi ..

end Heap
