import Mathlib.Tactic

/-!
# Counted fields

A reader that counts the lines that are fields, and takes as many as there are fields for all of
them. Whether that is right is a question of what is missing and what is repeated.
-/

namespace LibEmbedding.Foundation

variable {α κ : Type} (which : α → Option κ) (fields : List κ) (lines : List α)

/-- Every field is on some line. -/
def Covers : Prop := ∀ k ∈ fields, ∃ line ∈ lines, which line = some k

/-- How many lines are a field. -/
def fieldLines : Nat := lines.countP fun line => (which line).isSome

section

variable {which lines}

theorem fieldLines_append (first rest : List α) :
    fieldLines which (first ++ rest) = fieldLines which first + fieldLines which rest :=
  List.countP_append

theorem fieldLines_none (h : ∀ line ∈ lines, which line = none) : fieldLines which lines = 0 :=
  List.countP_eq_zero.mpr fun line hline => by rw [h line hline]; exact Bool.false_ne_true

theorem fieldLines_le (which : α → Option κ) (lines : List α) :
    fieldLines which lines ≤ lines.length := List.countP_le_length

/-- Every line is a field. -/
theorem fieldLines_eq_length :
    fieldLines which lines = lines.length ↔ ∀ line ∈ lines, (which line).isSome = true :=
  List.countP_eq_length

end

variable [DecidableEq κ]

def linesAs (k : κ) : Nat := lines.countP fun line => which line = some k

/-- How many fields are on no line. -/
def missing : Nat := fields.countP fun k => linesAs which lines k = 0

/-- How many lines are a field that an earlier line is already. -/
def repeats : Nat := (fields.map fun k => linesAs which lines k - 1).sum

variable {which fields lines}

theorem covers_iff : Covers which fields lines ↔ missing which fields lines = 0 := by
  have hthere : ∀ k, linesAs which lines k ≠ 0 ↔ ∃ line ∈ lines, which line = some k := by
    intro k
    rw [linesAs, ← Nat.pos_iff_ne_zero, List.countP_pos_iff]
    simp only [decide_eq_true_eq]
  rw [missing, List.countP_eq_zero]
  refine forall₂_congr fun k _ => ?_
  rw [decide_eq_true_eq]
  exact (hthere k).symm

theorem sum_ite {β : Type} (p : β → Prop) [DecidablePred p] (keys : List β) :
    (keys.map fun k => if p k then 1 else 0).sum = keys.countP fun k => p k := by
  induction keys with
  | nil => rfl
  | cons k keys ih =>
    rw [List.map_cons, List.sum_cons, ih, List.countP_cons, Nat.add_comm]
    simp only [decide_eq_true_eq]

/-- The lines of all fields together. -/
theorem sum_linesAs (hnodup : fields.Nodup) (hmem : ∀ line k, which line = some k → k ∈ fields) :
    (fields.map (linesAs which lines)).sum = fieldLines which lines := by
  induction lines with
  | nil => exact List.sum_eq_zero (by simp [linesAs])
  | cons line lines ih =>
    have hsplit : ∀ k, linesAs which (line :: lines) k =
        linesAs which lines k + if which line = some k then 1 else 0 := by
      intro k
      simp [linesAs, List.countP_cons]
    have hline : (fields.map fun k => if which line = some k then 1 else 0).sum =
        if (which line).isSome then 1 else 0 := by
      cases hwhich : which line with
      | none => simp
      | some own =>
        have hcount : (fields.countP fun k => some own = some k) = fields.count own := by
          refine List.countP_congr fun k _ => ?_
          rw [decide_eq_true_eq, Option.some.injEq, beq_iff_eq]
          exact eq_comm
        rw [sum_ite, hcount, List.count_eq_one_of_mem hnodup (hmem line own hwhich)]
        rfl
    rw [List.map_congr_left fun k _ => hsplit k, List.sum_map_add, ih, hline, fieldLines,
      fieldLines, List.countP_cons]

theorem fieldLines_add_missing (lines : List α) (hnodup : fields.Nodup)
    (hmem : ∀ line k, which line = some k → k ∈ fields) :
    fieldLines which lines + missing which fields lines =
      fields.length + repeats which fields lines := by
  have hfields : ∀ keys : List κ, (keys.map (linesAs which lines)).sum + missing which keys lines =
      keys.length + repeats which keys lines := by
    intro keys
    induction keys with
    | nil => rfl
    | cons k keys ih =>
      simp only [missing, repeats, List.countP_cons, List.map_cons, List.sum_cons, List.length_cons,
        decide_eq_true_eq] at ih ⊢
      split <;> omega
  rw [← sum_linesAs hnodup hmem]
  exact hfields fields

/-- A count finds every field exactly where repeated lines do not make up for the missing ones. -/
theorem covers_of_count_iff (hnodup : fields.Nodup)
    (hmem : ∀ line k, which line = some k → k ∈ fields) :
    (fields.length ≤ fieldLines which lines → Covers which fields lines) ↔
      (missing which fields lines = 0 ∨
        repeats which fields lines < missing which fields lines) := by
  have hbalance := fieldLines_add_missing lines hnodup hmem
  rw [covers_iff]
  omega

end LibEmbedding.Foundation
