import Mathlib.Logic.Function.Basic

/-!
# A heap

Objects under addresses that are handed out once: what is allocated is apart from everything that
was there before, and stays until it is freed.
-/

namespace LibEmbedding.Foundation

structure Heap (α : Type) where
  next : Nat
  cells : Nat → Option α
  fresh : ∀ p, next ≤ p → cells p = none

namespace Heap

variable {α : Type}

def empty : Heap α where
  next := 0
  cells _ := none
  fresh _ _ := rfl

/-- The object goes under the next address. -/
def alloc (a : α) (h : Heap α) : Heap α where
  next := h.next + 1
  cells := Function.update h.cells h.next (some a)
  fresh p hp := by
    rw [Function.update_of_ne (by omega)]
    exact h.fresh p (by omega)

def free (p : Nat) (h : Heap α) : Heap α where
  next := h.next
  cells := Function.update h.cells p none
  fresh q hq := by
    by_cases hqp : q = p
    · rw [hqp, Function.update_self]
    · rw [Function.update_of_ne hqp]
      exact h.fresh q hq

/-- Writes over what is allocated under the address. -/
def write (p : Nat) (a : α) (h : Heap α) : Heap α where
  next := h.next
  cells := Function.update h.cells p ((h.cells p).map fun _ => a)
  fresh q hq := by
    by_cases hqp : q = p
    · rw [hqp, Function.update_self, ← hqp, h.fresh q hq]
      rfl
    · rw [Function.update_of_ne hqp]
      exact h.fresh q hq

/-- Something is allocated under the address. -/
def Live (h : Heap α) (p : Nat) : Prop := (h.cells p).isSome = true

instance (h : Heap α) (p : Nat) : Decidable (h.Live p) := inferInstanceAs (Decidable (_ = _))

variable {h : Heap α} {a b : α} {p q : Nat}

@[simp] theorem next_alloc : (h.alloc a).next = h.next + 1 := rfl

@[simp] theorem next_free : (h.free p).next = h.next := rfl

@[simp] theorem cells_alloc : (h.alloc a).cells h.next = some a := Function.update_self _ _ _

theorem cells_alloc_of_ne (hp : p ≠ h.next) : (h.alloc a).cells p = h.cells p :=
  Function.update_of_ne hp _ _

@[simp] theorem cells_free : (h.free p).cells p = none := Function.update_self _ _ _

theorem cells_free_of_ne (hq : q ≠ p) : (h.free p).cells q = h.cells q :=
  Function.update_of_ne hq _ _

@[simp] theorem next_write : (h.write p a).next = h.next := rfl

theorem cells_write (hp : h.cells p = some b) : (h.write p a).cells p = some a := by
  have hself : (h.write p a).cells p = (h.cells p).map fun _ => a := Function.update_self _ _ _
  rw [hself, hp]
  rfl

theorem cells_write_of_ne (hq : q ≠ p) : (h.write p a).cells q = h.cells q :=
  Function.update_of_ne hq _ _

theorem lt_of_cells (hp : h.cells p = some a) : p < h.next := by
  by_contra hle
  rw [h.fresh p (Nat.le_of_not_lt hle)] at hp
  cases hp

theorem live_of_cells (hp : h.cells p = some a) : h.Live p := by
  rw [Live, hp]
  rfl

theorem not_live_fresh (hp : h.next ≤ p) : ¬h.Live p := by
  rw [Live, h.fresh p hp]
  exact Bool.false_ne_true

theorem Live.lt (hp : h.Live p) : p < h.next := Nat.lt_of_not_le fun hle => not_live_fresh hle hp

theorem live_alloc : (h.alloc a).Live h.next := by
  rw [Live, cells_alloc]
  rfl

theorem live_alloc_iff : (h.alloc a).Live p ↔ p = h.next ∨ h.Live p := by
  by_cases hp : p = h.next
  · rw [hp]
    exact iff_of_true live_alloc (.inl rfl)
  · rw [Live, cells_alloc_of_ne hp, or_iff_right hp]
    rfl

theorem live_free_iff : (h.free p).Live q ↔ q ≠ p ∧ h.Live q := by
  by_cases hq : q = p
  · rw [hq, Live, cells_free]
    exact iff_of_false Bool.false_ne_true fun hlive => hlive.1 rfl
  · rw [Live, cells_free_of_ne hq, and_iff_right hq]
    rfl

@[simp] theorem live_write_iff : (h.write p a).Live q ↔ h.Live q := by
  by_cases hq : q = p
  · subst hq
    have hself : (h.write q a).cells q = (h.cells q).map fun _ => a := Function.update_self _ _ _
    rw [Live, hself, Option.isSome_map]
    rfl
  · rw [Live, cells_write_of_ne hq]
    rfl

/-- What was allocated last can be freed without a trace. -/
theorem live_alloc_free_iff : ((h.alloc a).free h.next).Live p ↔ h.Live p := by
  rw [live_free_iff, live_alloc_iff]
  constructor
  · rintro ⟨hne, hp⟩
    exact hp.resolve_left hne
  · intro hp
    exact ⟨Nat.ne_of_lt hp.lt, .inr hp⟩

end Heap

end LibEmbedding.Foundation
