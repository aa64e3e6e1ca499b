import Mathlib.Tactic

/-!
# Loops that break off

A loop over the counts from one up to a limit, left early after an iteration that says so.
Where it leaves is told by the states it would pass without the break.
-/

namespace LibEmbedding.Foundation

variable {σ : Type u} (step : σ → Nat → σ × Bool)

/-- `left` more iterations, after the first `n`. -/
def forBreakFrom : (left n : Nat) → σ → σ × Nat
  | 0, n, s => (s, n)
  | left + 1, n, s =>
    let (t, stop) := step s (n + 1)
    if stop then (t, n + 1) else forBreakFrom left (n + 1) t

/-- `for (n = 1; n <= limit; n++) { s = step(s, n); if (...) break; }`, with the number of
iterations. -/
def forBreak (init : σ) (limit : Nat) : σ × Nat := forBreakFrom step limit 0 init

/-- The state after `k` iterations, had none of them broken off. -/
def passed (init : σ) : Nat → σ
  | 0 => init
  | k + 1 => (step (passed init k) (k + 1)).1

/-- The loop leaves after `k` iterations: at its limit, or where an iteration breaks off for
the first time. -/
structure LeavesAfter (init : σ) (limit k : Nat) : Prop where
  le : k ≤ limit
  kept : ∀ i, i + 1 < k → (step (passed step init i) (i + 1)).2 = false
  broke : k < limit → ∃ i, k = i + 1 ∧ (step (passed step init i) (i + 1)).2 = true

variable {step}

theorem forBreakFrom_leaves (left n : Nat)
    (hkept : ∀ i < n, (step (passed step init i) (i + 1)).2 = false) :
    ∃ k, forBreakFrom step left n (passed step init n) = (passed step init k, k) ∧
      LeavesAfter step init (n + left) k := by
  induction left generalizing n with
  | zero =>
    refine ⟨n, rfl, le_rfl, fun i hi => hkept i (by omega), ?_⟩
    intro hlt
    omega
  | succ left ih =>
    simp only [forBreakFrom]
    by_cases hstop : (step (passed step init n) (n + 1)).2
    · rw [if_pos hstop]
      exact ⟨n + 1, rfl, by omega, fun i hi => hkept i (by omega), fun _ => ⟨n, rfl, hstop⟩⟩
    · rw [if_neg hstop]
      obtain ⟨k, hk, hleaves⟩ := ih (n + 1) fun i hi => by
        rcases Nat.lt_succ_iff_lt_or_eq.mp hi with hlt | rfl
        · exact hkept i hlt
        · simpa using hstop
      exact ⟨k, hk, Nat.add_right_comm n 1 left ▸ hleaves⟩

/-- A loop ends in the state it has passed when it leaves. -/
theorem forBreak_leaves (step : σ → Nat → σ × Bool) (init : σ) (limit : Nat) :
    ∃ k, forBreak step init limit = (passed step init k, k) ∧ LeavesAfter step init limit k := by
  have hkept : ∀ i < 0, (step (passed step init i) (i + 1)).2 = false :=
    fun i hi => absurd hi i.not_lt_zero
  obtain ⟨k, hk, hleaves⟩ := forBreakFrom_leaves limit 0 hkept
  rw [Nat.zero_add] at hleaves
  exact ⟨k, hk, hleaves⟩

/-- What holds at the start and survives an iteration holds of every state passed. -/
theorem passed_invariant (I : Nat → σ → Prop) (hinit : I 0 init)
    (hstep : ∀ k s, I k s → I (k + 1) (step s (k + 1)).1) (k : Nat) :
    I k (passed step init k) := by
  induction k with
  | zero => exact hinit
  | succ k ih => exact hstep k _ ih

/-- With a test that agrees with the break, a loop leaves where the test first succeeds. -/
theorem LeavesAfter.iff (P : Nat → Prop)
    (hbreak : ∀ i, (step (passed step init i) (i + 1)).2 = true ↔ P (i + 1))
    (h : LeavesAfter step init limit k) :
    (∀ n, 0 < n → n < k → ¬P n) ∧ (k < limit → P k) := by
  constructor
  · intro n hpos hlt hP
    obtain ⟨i, rfl⟩ := Nat.exists_eq_succ_of_ne_zero hpos.ne'
    have hkept := h.kept i hlt
    rw [(hbreak i).mpr hP] at hkept
    cases hkept
  · intro hlt
    obtain ⟨i, rfl, hbroke⟩ := h.broke hlt
    exact (hbreak i).mp hbroke

end LibEmbedding.Foundation
