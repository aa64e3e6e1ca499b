import Mathlib.Tactic

/-!
# Runs

A system that takes one step after another. What is said of a run is said of every state
it passes, or of every step it takes.
-/

namespace LibEmbedding.Foundation

variable {σ : Type u} {α : Type v} (step : σ → α → σ → Prop)

/-- The steps `acts` lead from `s` to a state. -/
inductive Run (s : σ) : List α → σ → Prop where
  | start : Run s [] s
  | next : Run s acts t → step t a u → Run s (acts ++ [a]) u

/-- Every state that a run along `acts` passes has `P`. -/
def Always (s : σ) (acts : List α) (P : σ → Prop) : Prop :=
  ∀ done t, done <+: acts → Run step s done t → P t

/-- Every step that a run along `acts` takes has `C`, with the state it is taken in. -/
def EveryStep (s : σ) (acts : List α) (C : σ → α → Prop) : Prop :=
  ∀ done a t u, done ++ [a] <+: acts → Run step s done t → step t a u → C t a

variable {step}

theorem Run.nil_iff : Run step s [] t ↔ t = s := by
  constructor
  · intro h
    generalize hacts : ([] : List α) = acts at h
    cases h with
    | start => rfl
    | next => simp at hacts
  · rintro rfl
    exact .start

theorem Run.append_iff : Run step s (acts ++ [a]) u ↔ ∃ t, Run step s acts t ∧ step t a u := by
  constructor
  · intro h
    generalize hall : acts ++ [a] = all at h
    cases h with
    | start => simp at hall
    | next hrun hstep =>
      obtain ⟨rfl, hlast⟩ := List.append_inj' hall rfl
      cases hlast
      exact ⟨_, hrun, hstep⟩
  · rintro ⟨t, hrun, hstep⟩
    exact .next hrun hstep

theorem Run.cons_iff : Run step s (a :: acts) u ↔ ∃ t, step s a t ∧ Run step t acts u := by
  induction acts using List.reverseRecOn generalizing u with
  | nil =>
    have happend : Run step s ([] ++ [a]) u ↔ ∃ t, Run step s [] t ∧ step t a u := append_iff
    simpa [nil_iff] using happend
  | append_singleton acts b ih =>
    rw [← List.cons_append, append_iff]
    simp only [ih, append_iff]
    exact ⟨fun ⟨v, ⟨t, ha, hrun⟩, hb⟩ => ⟨t, ha, v, hrun, hb⟩,
      fun ⟨t, ha, v, hrun, hb⟩ => ⟨v, ⟨t, ha, hrun⟩, hb⟩⟩

/-- What holds at the start and survives every step holds wherever a run ends. -/
theorem Run.invariant {I : σ → Prop} (hstart : I s) (hstep : ∀ t a u, I t → step t a u → I u)
    (h : Run step s acts t) : I t := by
  induction h with
  | start => exact hstart
  | next _ hnext ih => exact hstep _ _ _ ih hnext

theorem everyStep_cons {C : σ → α → Prop} (hfirst : ∀ u, step s a u → C s a)
    (hrest : ∀ u, step s a u → EveryStep step u acts C) : EveryStep step s (a :: acts) C := by
  intro done b t u hpre hrun hnext
  cases done with
  | nil =>
    obtain ⟨rfl, -⟩ := List.cons_prefix_cons.mp hpre
    cases Run.nil_iff.mp hrun
    exact hfirst u hnext
  | cons c done =>
    obtain ⟨rfl, hdone⟩ := List.cons_prefix_cons.mp hpre
    obtain ⟨v, hstep, hrun⟩ := Run.cons_iff.mp hrun
    exact hrest v hstep done b t u hdone hrun hnext

theorem everyStep_nil {C : σ → α → Prop} : EveryStep step s [] C := by
  intro done a t u hpre
  simp at hpre

/-- What holds at the start and survives every step that has `C` holds all along a run whose
steps have it. -/
theorem always_of_everyStep {I : σ → Prop} {C : σ → α → Prop} (hstart : I s)
    (hstep : ∀ t a u, I t → C t a → step t a u → I u) (hevery : EveryStep step s acts C) :
    Always step s acts I := by
  intro done t hpre hrun
  induction hrun with
  | start => exact hstart
  | @next done t a u hrun hnext ih =>
    have hdone : done <+: acts := (List.prefix_append done [a]).trans hpre
    exact hstep t a u (ih hdone) (hevery done a t u hpre hrun hnext) hnext

/-- The rule for conditional invariants. Where a step keeps `P` exactly when it has `C`, a
run keeps `P` exactly when all its steps have `C`. -/
theorem always_iff_everyStep {P : σ → Prop} {C : σ → α → Prop} (hstart : P s)
    (hstep : ∀ t a u, P t → step t a u → (P u ↔ C t a)) :
    Always step s acts P ↔ EveryStep step s acts C := by
  constructor
  · intro halways done a t u hpre hrun hnext
    have hdone : done <+: acts := (List.prefix_append done [a]).trans hpre
    exact (hstep t a u (halways done t hdone hrun) hnext).mp
      (halways _ u hpre (.next hrun hnext))
  · exact always_of_everyStep hstart fun t a u h hmeets hnext => (hstep t a u h hnext).mpr hmeets

/-- The rule where the step lemma needs an invariant of the system as well. -/
theorem always_iff_everyStep_of_invariant {I P : σ → Prop} {C : σ → α → Prop} (hfirst : I s)
    (hkeep : ∀ t a u, I t → step t a u → I u) (hstart : P s)
    (hstep : ∀ t a u, I t → P t → step t a u → (P u ↔ C t a)) :
    Always step s acts P ↔ EveryStep step s acts C := by
  have hboth : Always step s acts P ↔ Always step s acts fun t => I t ∧ P t := by
    constructor
    · intro halways done t hpre hrun
      exact ⟨hrun.invariant hfirst hkeep, halways done t hpre hrun⟩
    · intro halways done t hpre hrun
      exact (halways done t hpre hrun).2
  rw [hboth]
  refine always_iff_everyStep ⟨hfirst, hstart⟩ fun t a u h hnext => ?_
  rw [and_iff_right (hkeep t a u h.1 hnext)]
  exact hstep t a u h.1 h.2 hnext

end LibEmbedding.Foundation
