import Mathlib.Tactic

/-!
# Longest match first

Cutting the stretch from `0` to `n` into pieces by a partial dictionary: at each position the
longest piece that has an entry is taken, until the end is reached or no piece fits. There is
one such scan, and it either covers the stretch or gets stuck.
-/

namespace LibEmbedding.Foundation

section

variable {ι : Type} (lookup : Nat → Nat → Option ι) (n : Nat)

/-- The longest piece at `start` that has an entry ends at `stop`. -/
structure Longest (start stop : Nat) (entry : ι) : Prop where
  lt : start < stop
  le : stop ≤ n
  found : lookup start stop = some entry
  longer : ∀ stop', stop < stop' → stop' ≤ n → lookup start stop' = none

/-- The entries a scan takes from `start` on, up to `last`. -/
inductive Scan : Nat → List ι → Nat → Prop where
  | here : Scan start [] start
  | next : Longest lookup n start stop entry → Scan stop entries last →
      Scan start (entry :: entries) last

/-- No piece at `start` has an entry. -/
structure Stuck (start : Nat) : Prop where
  lt : start < n
  none : ∀ stop, start < stop → stop ≤ n → lookup start stop = none

/-- A scan that ends at `last` cannot go on. -/
def Ended (last : Nat) : Prop := last = n ∨ Stuck lookup n last

end

variable {ι : Type} {lookup : Nat → Nat → Option ι} {n : Nat}

theorem Longest.unique {entry entry' : ι} (h : Longest lookup n start stop entry)
    (h' : Longest lookup n start stop' entry') :
    stop = stop' ∧ entry = entry' := by
  have hstop : stop = stop' := by
    rcases Nat.lt_trichotomy stop stop' with hlt | heq | hgt
    · have hnone := h.longer stop' hlt h'.le
      rw [h'.found] at hnone
      cases hnone
    · exact heq
    · have hnone := h'.longer stop hgt h.le
      rw [h.found] at hnone
      cases hnone
  subst hstop
  have hfound := h.found
  rw [h'.found] at hfound
  exact ⟨rfl, (Option.some.inj hfound).symm⟩

/-- Where a piece fits the scan has not ended. -/
theorem Longest.not_ended {entry : ι} (h : Longest lookup n start stop entry) :
    ¬Ended lookup n start := by
  rintro (rfl | hstuck)
  · exact absurd (Nat.lt_of_lt_of_le h.lt h.le) (Nat.lt_irrefl _)
  · have hnone := hstuck.none stop h.lt h.le
    rw [h.found] at hnone
    cases hnone

/-- There is one scan. -/
theorem Scan.unique (h : Scan lookup n start entries last) (hended : Ended lookup n last)
    (h' : Scan lookup n start entries' last') (hended' : Ended lookup n last') :
    entries = entries' ∧ last = last' := by
  induction h generalizing entries' with
  | here =>
    cases h' with
    | here => exact ⟨rfl, rfl⟩
    | next hlongest _ => exact absurd hended hlongest.not_ended
  | next hlongest _ ih =>
    cases h' with
    | here => exact absurd hended' hlongest.not_ended
    | next hlongest' hrest =>
      obtain ⟨rfl, rfl⟩ := hlongest.unique hlongest'
      obtain ⟨rfl, rfl⟩ := ih hended hrest
      exact ⟨rfl, rfl⟩

end LibEmbedding.Foundation
