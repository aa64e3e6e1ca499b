import LibEmbedding.Foundation.Checked
import Mathlib.Data.List.Sort

/-!
# The standard sorting algorithms

`std::sort` and `std::partial_sort` promise an ordered permutation only for a
comparison that is a strict weak order on the elements; on any other one an
implementation may do anything. A result proved for every `SortImpl` relies on
the promise alone.
-/

namespace LibEmbedding.Foundation

/-- `lt` is a strict weak order on the elements of `l`. -/
structure StrictWeak (lt : α → α → Bool) (l : List α) : Prop where
  irrefl : ∀ a ∈ l, lt a a = false
  trans : ∀ a ∈ l, ∀ b ∈ l, ∀ c ∈ l, lt a b → lt b c → lt a c
  incomp : ∀ a ∈ l, ∀ b ∈ l, ∀ c ∈ l, lt a b = false → lt b c = false → lt a c = false

/-- The order a sorted range has: no element goes before an earlier one. -/
def InOrder (lt : α → α → Bool) (a b : α) : Prop := lt b a = false

instance (lt : α → α → Bool) : DecidableRel (InOrder lt) := fun _ _ =>
  inferInstanceAs (Decidable (_ = _))

structure SortImpl where
  sort : {α : Type} → (α → α → Bool) → List α → Checked (List α)
  partialSort : {α : Type} → (α → α → Bool) → Nat → List α → Checked (List α)
  sort_spec : ∀ {α : Type} (lt : α → α → Bool) (l : List α), StrictWeak lt l →
    ∃ out, sort lt l = .ok out ∧ out.Perm l ∧ out.Pairwise (InOrder lt)
  partialSort_spec : ∀ {α : Type} (lt : α → α → Bool) (k : Nat) (l : List α), k ≤ l.length →
    StrictWeak lt l → ∃ out, partialSort lt k l = .ok out ∧ out.Perm l ∧
      (out.take k).Pairwise (InOrder lt) ∧ ∀ a ∈ out.take k, ∀ b ∈ out.drop k, InOrder lt a b

/-- Comparing by a key of a linear order is a strict weak order. -/
theorem StrictWeak.of_key [LinearOrder κ] (key : α → κ) (l : List α) :
    StrictWeak (fun a b => decide (key a < key b)) l where
  irrefl a _ := by simp
  trans a _ b _ c _ hab hbc := by
    simp only [decide_eq_true_eq] at hab hbc ⊢
    exact hab.trans hbc
  incomp a _ b _ c _ hab hbc := by
    simp only [decide_eq_false_iff_not, not_lt] at hab hbc ⊢
    exact hbc.trans hab

/-- So is comparing by it the other way round. -/
theorem StrictWeak.of_key_gt [LinearOrder κ] (key : α → κ) (l : List α) :
    StrictWeak (fun a b => decide (key b < key a)) l where
  irrefl a _ := by simp
  trans a _ b _ c _ hab hbc := by
    simp only [decide_eq_true_eq] at hab hbc ⊢
    exact hbc.trans hab
  incomp a _ b _ c _ hab hbc := by
    simp only [decide_eq_false_iff_not, not_lt] at hab hbc ⊢
    exact hab.trans hbc

theorem StrictWeak.asymm {lt : α → α → Bool} (h : StrictWeak lt l) (ha : a ∈ l) (hb : b ∈ l)
    (hab : lt a b) : lt b a = false := by
  rw [Bool.eq_false_iff]
  intro hba
  exact absurd (h.trans a ha b hb a ha hab hba) (by simp [h.irrefl a ha])

/-- Sorting with a strict weak order by insertion. -/
theorem pairwise_insertionSort_of_strictWeak {lt : α → α → Bool} {l : List α}
    (h : StrictWeak lt l) : (l.insertionSort (InOrder lt)).Pairwise (InOrder lt) := by
  let r : {a // a ∈ l} → {a // a ∈ l} → Prop := fun a b => InOrder lt a.val b.val
  have htotal : Std.Total r := ⟨fun a b => by
    by_cases hab : lt b.val a.val = true
    · exact .inr (h.asymm b.property a.property hab)
    · exact .inl (Bool.eq_false_iff.mpr hab)⟩
  have hdec : DecidableRel r := fun _ _ => inferInstanceAs (Decidable (InOrder lt _ _))
  have htrans : IsTrans _ r := ⟨fun a b c hab hbc =>
    h.incomp c.val c.property b.val b.property a.val a.property hbc hab⟩
  have hmap := List.map_insertionSort r (InOrder lt) Subtype.val l.attach fun _ _ _ _ => Iff.rfl
  rw [List.attach_map_subtype_val] at hmap
  rw [← hmap, List.pairwise_map]
  exact List.pairwise_insertionSort r l.attach

/-- Insertion sort keeps the promise, also for the first places only. -/
def insertionImpl : SortImpl where
  sort lt l := .ok (l.insertionSort (InOrder lt))
  partialSort lt _ l := .ok (l.insertionSort (InOrder lt))
  sort_spec lt l h :=
    ⟨_, rfl, List.perm_insertionSort _ l, pairwise_insertionSort_of_strictWeak h⟩
  partialSort_spec lt k l _ h := by
    have hsorted := pairwise_insertionSort_of_strictWeak h
    refine ⟨_, rfl, List.perm_insertionSort _ l, hsorted.sublist (List.take_sublist k _), ?_⟩
    intro a ha b hb
    rw [← List.take_append_drop k (l.insertionSort (InOrder lt)), List.pairwise_append] at hsorted
    exact hsorted.2.2 a ha b hb

open Classical in
/-- An implementation that stops where nothing is promised. -/
noncomputable def trapImpl : SortImpl where
  sort lt l := if StrictWeak lt l then insertionImpl.sort lt l else .error .outOfBounds
  partialSort lt k l := insertionImpl.partialSort lt k l
  sort_spec lt l h := by
    rw [if_pos h]
    exact insertionImpl.sort_spec lt l h
  partialSort_spec lt k l hk h := insertionImpl.partialSort_spec lt k l hk h

theorem trapImpl_ok {lt : α → α → Bool} {l : List α} (h : trapImpl.sort lt l = .ok out) :
    StrictWeak lt l := by
  by_contra hnot
  have hstops : trapImpl.sort lt l = .error .outOfBounds := if_neg hnot
  cases hstops.symm.trans h

open Classical in
/-- An implementation that leaves a given list in a given order. -/
noncomputable def leavingImpl {β : Type} (lt₀ : β → β → Bool) (l₀ out : List β) (hperm : out.Perm l₀)
    (hsorted : out.Pairwise (InOrder lt₀)) : SortImpl where
  sort {α} lt l :=
    if h : ∃ e : β = α, HEq lt₀ lt ∧ HEq l₀ l then .ok (cast (congrArg List h.1) out)
    else insertionImpl.sort lt l
  partialSort lt k l := insertionImpl.partialSort lt k l
  sort_spec {α} lt l h := by
    split
    · rename_i hgiven
      obtain ⟨e, hlt, hl⟩ := hgiven
      subst e
      cases hlt
      cases hl
      exact ⟨out, rfl, hperm, hsorted⟩
    · exact insertionImpl.sort_spec lt l h
  partialSort_spec lt k l hk h := insertionImpl.partialSort_spec lt k l hk h

theorem leavingImpl_sort {β : Type} {lt : β → β → Bool} {l out : List β} (hperm : out.Perm l)
    (hsorted : out.Pairwise (InOrder lt)) :
    (leavingImpl lt l out hperm hsorted).sort lt l = .ok out :=
  dif_pos ⟨rfl, HEq.rfl, HEq.rfl⟩

end LibEmbedding.Foundation
