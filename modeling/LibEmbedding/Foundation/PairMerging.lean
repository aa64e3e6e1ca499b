import Mathlib.Tactic

/-!
# Merging adjacent pairs by rank

Of the adjacent pairs of a list that have a rank, the leftmost one of least rank is joined,
again and again. Each step is determined and shortens the list, so every list comes to one list
in which no adjacent pair has a rank.
-/

namespace LibEmbedding.Foundation

variable {σ ρ : Type} [LinearOrder ρ] (rank : σ → σ → Option ρ) (join : σ → σ → σ)

/-- The pair at `i` has rank `r`. -/
def RankAt (xs : List σ) (i : Nat) (r : ρ) : Prop :=
  ∃ a b, xs[i]? = some a ∧ xs[i + 1]? = some b ∧ rank a b = some r

/-- The leftmost pair of least rank. -/
structure BestPair (xs : List σ) (i : Nat) (r : ρ) : Prop where
  rankAt : RankAt rank xs i r
  least : ∀ j s, RankAt rank xs j s → r ≤ s
  leftmost : ∀ j s, RankAt rank xs j s → j < i → r < s

/-- One merge. -/
def MergeStep (xs ys : List σ) : Prop :=
  ∃ front a b back r, xs = front ++ a :: b :: back ∧ BestPair rank xs front.length r ∧
    ys = front ++ join a b :: back

/-- No adjacent pair has a rank. -/
def Merged (xs : List σ) : Prop := ∀ i r, ¬RankAt rank xs i r

/-- Merging until no pair is left. -/
def MergesTo (xs out : List σ) : Prop :=
  Relation.ReflTransGen (MergeStep rank join) xs out ∧ Merged rank out

variable {rank join}

theorem BestPair.unique {xs : List σ} {r s : ρ} (h : BestPair rank xs i r)
    (h' : BestPair rank xs j s) : i = j := by
  rcases Nat.lt_trichotomy i j with hlt | heq | hgt
  · exact absurd (h'.leftmost i r h.rankAt hlt) (not_lt.mpr (h.least j s h'.rankAt))
  · exact heq
  · exact absurd (h.leftmost j s h'.rankAt hgt) (not_lt.mpr (h'.least i r h.rankAt))

theorem MergeStep.unique {xs ys zs : List σ} (h : MergeStep rank join xs ys)
    (h' : MergeStep rank join xs zs) : ys = zs := by
  obtain ⟨front, a, b, back, r, rfl, hbest, rfl⟩ := h
  obtain ⟨front', a', b', back', s, heq, hbest', rfl⟩ := h'
  obtain ⟨rfl, hpairs⟩ := List.append_inj heq (hbest.unique hbest')
  cases hpairs
  rfl

theorem MergeStep.length {xs ys : List σ} (h : MergeStep rank join xs ys) :
    ys.length + 1 = xs.length := by
  obtain ⟨front, a, b, back, r, rfl, -, rfl⟩ := h
  simp only [List.length_append, List.length_cons]
  omega

theorem Merged.no_step {xs ys : List σ} (h : Merged rank xs) : ¬MergeStep rank join xs ys := by
  rintro ⟨front, a, b, back, r, -, hbest, -⟩
  exact h _ _ hbest.rankAt

/-- There is at most one result. -/
theorem MergesTo.unique {xs out out' : List σ} (h : MergesTo rank join xs out)
    (h' : MergesTo rank join xs out') : out = out' := by
  have hunique : Relator.RightUnique (MergeStep rank join) :=
    fun _ _ _ hstep hstep' => hstep.unique hstep'
  rcases Relation.ReflTransGen.total_of_right_unique hunique h.1 h'.1 with hrun | hrun
  · rcases hrun.cases_head with heq | ⟨next, hstep, -⟩
    · exact heq
    · exact absurd hstep h.2.no_step
  · rcases hrun.cases_head with heq | ⟨next, hstep, -⟩
    · exact heq.symm
    · exact absurd hstep h'.2.no_step

/-- No run of merges goes on for ever. -/
theorem no_endless_merging (run : Nat → List σ) :
    ¬∀ n, MergeStep rank join (run n) (run (n + 1)) := by
  intro h
  have hlength (n : Nat) : (run n).length + n = (run 0).length := by
    induction n with
    | zero => rfl
    | succ n ih =>
      have hstep := (h n).length
      omega
  have hlast := hlength ((run 0).length + 1)
  omega

/-- What one merge keeps, merging keeps. -/
theorem MergesTo.keeps {τ : Type} {f : List σ → τ}
    (hstep : ∀ xs ys, MergeStep rank join xs ys → f ys = f xs) {xs out : List σ}
    (h : MergesTo rank join xs out) : f out = f xs := by
  obtain ⟨hrun, -⟩ := h
  induction hrun with
  | refl => rfl
  | tail _ hlast ih => exact (hstep _ _ hlast).trans ih

end LibEmbedding.Foundation
