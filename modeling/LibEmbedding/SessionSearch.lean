import LibEmbedding.Foundation.Breaks

/-!
# The search for a number of sessions

`detect_optimal_sessions` of `embedding_benchmark_impl.hpp` measures one session, two
sessions and so on. Its counter of declines is set back by a new best throughput only, so two
declines with a better count between them stop it as well.
-/

namespace LibEmbedding

open Foundation

/-- What a pool with so many sessions and threads yields; zero when it does not load. -/
abbrev PoolThroughput := (nSess nThreads : Nat) → ℚ≥0

structure SessionSearch where
  bestTps : ℚ≥0
  bestN : Nat
  plateauCount : Nat
  deriving DecidableEq

namespace SessionSearch

def new : SessionSearch := ⟨0, 1, 0⟩

/-- One measurement: a new best, a value more than 5% below it, or neither. -/
def step (measurePoolThroughput : PoolThroughput) (s : SessionSearch) (n : Nat) :
    SessionSearch × Bool :=
  let tps := measurePoolThroughput n 1
  if s.bestTps < tps then ({ bestTps := tps, bestN := n, plateauCount := 0 }, false)
  else if tps < s.bestTps * (95 / 100) then
    ({ s with plateauCount := s.plateauCount + 1 }, decide (2 ≤ s.plateauCount + 1))
  else (s, false)

end SessionSearch

/-- The search, with how many counts it has measured. -/
def detectOptimalSessions (measurePoolThroughput : PoolThroughput) (maxSessions : Int) :
    SessionSearch × Nat :=
  forBreak (SessionSearch.step measurePoolThroughput) .new maxSessions.toNat

-- ---------------------------------------------------------------------------
-- The stated rule
-- ---------------------------------------------------------------------------

/-- The best throughput of the first `n` counts. -/
def bestUpTo (measure : PoolThroughput) : Nat → ℚ≥0
  | 0 => 0
  | n + 1 => max (bestUpTo measure n) (measure (n + 1) 1)

/-- The count is better than all smaller ones. -/
def Improves (measure : PoolThroughput) (n : Nat) : Prop :=
  bestUpTo measure (n - 1) < measure n 1

/-- The count is more than 5% below the best throughput so far. -/
def Declines (measure : PoolThroughput) (n : Nat) : Prop :=
  measure n 1 < bestUpTo measure (n - 1) * (95 / 100)

instance (measure : PoolThroughput) (n : Nat) : Decidable (Declines measure n) :=
  inferInstanceAs (Decidable (_ < _))

/-- The best count of those measured, and none left out but behind two declines in a row. -/
structure StopsByRule (measure : PoolThroughput) (maxSessions : Int) (r : SessionSearch × Nat) :
    Prop where
  measured : 1 ≤ maxSessions → 1 ≤ r.1.bestN ∧ r.1.bestN ≤ r.2
  best : ∀ n, 1 ≤ n → n ≤ r.2 → measure n 1 ≤ measure r.1.bestN 1
  leaves : ∀ n, r.2 < n → (n : Int) ≤ maxSessions →
    ∃ k, k + 1 < n ∧ Declines measure k ∧ Declines measure (k + 1)

/-- The second of two declines without a better count between them. -/
def Lapses (measure : PoolThroughput) (n : Nat) : Prop :=
  Declines measure n ∧ ∃ k < n, Declines measure k ∧
    ∀ j, k < j → j < n → ¬Improves measure j

-- ---------------------------------------------------------------------------
-- The states of the search
-- ---------------------------------------------------------------------------

section Search

variable {measure : PoolThroughput}

theorem Declines.not_improves (h : Declines measure n) : ¬Improves measure n := by
  intro himproves
  have hbelow : bestUpTo measure (n - 1) * (95 / 100) ≤ bestUpTo measure (n - 1) :=
    mul_le_of_le_one_right zero_le (div_le_one_of_le₀ (by norm_num) zero_le)
  exact absurd (himproves.trans h) (not_lt.mpr hbelow)

theorem le_bestUpTo (hpos : 1 ≤ n) (hle : n ≤ k) : measure n 1 ≤ bestUpTo measure k := by
  induction k with
  | zero => omega
  | succ k ih =>
    rw [bestUpTo]
    rcases Nat.le_succ_iff.mp hle with hle | rfl
    · exact le_max_of_le_left (ih hle)
    · exact le_max_right _ _

/-- What the search knows after `k` measurements: the best throughput and a count that has
it, and that a decline is not yet made up for. -/
structure Searched (measure : PoolThroughput) (k : Nat) (s : SessionSearch) : Prop where
  bestTps : s.bestTps = bestUpTo measure k
  pos : 1 ≤ s.bestN
  le : s.bestN ≤ max 1 k
  reached : s.bestTps = 0 ∨ measure s.bestN 1 = s.bestTps
  plateau : 1 ≤ s.plateauCount ↔
    ∃ i ≤ k, Declines measure i ∧ ∀ j, i < j → j ≤ k → ¬Improves measure j

theorem not_declines_zero : ¬Declines measure 0 := by
  simp [Declines, bestUpTo]

theorem searched_new (measure : PoolThroughput) : Searched measure 0 .new where
  bestTps := rfl
  pos := le_rfl
  le := le_rfl
  reached := .inl rfl
  plateau := by
    constructor
    · intro h
      cases h
    · rintro ⟨i, hi, hdecline, -⟩
      obtain rfl := Nat.le_zero.mp hi
      exact absurd hdecline not_declines_zero

/-- Nothing is made up for by a count that is not better. -/
theorem unmade_succ (hnot : ¬Improves measure (k + 1)) (hdecline : ¬Declines measure (k + 1)) :
    (∃ i ≤ k + 1, Declines measure i ∧ ∀ j, i < j → j ≤ k + 1 → ¬Improves measure j) ↔
      ∃ i ≤ k, Declines measure i ∧ ∀ j, i < j → j ≤ k → ¬Improves measure j := by
  constructor
  · rintro ⟨i, hi, hfirst, hrest⟩
    rcases Nat.le_succ_iff.mp hi with hle | rfl
    · exact ⟨i, hle, hfirst, fun j hj hjk => hrest j hj (by omega)⟩
    · exact absurd hfirst hdecline
  · rintro ⟨i, hi, hfirst, hrest⟩
    refine ⟨i, by omega, hfirst, fun j hj hjk => ?_⟩
    rcases Nat.le_succ_iff.mp hjk with hle | rfl
    · exact hrest j hj hle
    · exact hnot

theorem Searched.step (h : Searched measure k s) :
    Searched measure (k + 1) (s.step measure (k + 1)).1 := by
  have hbest : bestUpTo measure (k + 1) = max s.bestTps (measure (k + 1) 1) := by
    rw [bestUpTo, h.bestTps]
  have himproves : Improves measure (k + 1) ↔ s.bestTps < measure (k + 1) 1 := by
    rw [Improves, Nat.add_sub_cancel, h.bestTps]
  have hdeclines : Declines measure (k + 1) ↔ measure (k + 1) 1 < s.bestTps * (95 / 100) := by
    rw [Declines, Nat.add_sub_cancel, h.bestTps]
  unfold SessionSearch.step
  dsimp only
  split
  · rename_i hbetter
    exact {
      bestTps := by rw [hbest, max_eq_right hbetter.le]
      pos := Nat.le_add_left 1 k
      le := le_max_right _ _
      reached := .inr rfl
      plateau := by
        constructor
        · intro hzero
          cases hzero
        · rintro ⟨i, hi, hdecline, hrest⟩
          rcases Nat.le_succ_iff.mp hi with hle | rfl
          · exact absurd (himproves.mpr hbetter) (hrest (k + 1) (by omega) le_rfl)
          · exact absurd (himproves.mpr hbetter) hdecline.not_improves }
  · rename_i hnot
    have hkept : bestUpTo measure (k + 1) = s.bestTps := by rw [hbest, max_eq_left (not_lt.mp hnot)]
    have hle : s.bestN ≤ max 1 (k + 1) := h.le.trans (by omega)
    split
    · rename_i hbelow
      refine ⟨hkept.symm, h.pos, hle, h.reached, ?_⟩
      constructor
      · intro _
        exact ⟨k + 1, le_rfl, hdeclines.mpr hbelow, fun j hj hjk => absurd hjk (by omega)⟩
      · intro _
        exact Nat.le_add_left 1 _
    · rename_i hnear
      refine ⟨hkept.symm, h.pos, hle, h.reached, ?_⟩
      rw [unmade_succ (himproves.not.mpr hnot) (hdeclines.not.mpr hnear)]
      exact h.plateau

theorem searched_passed (measure : PoolThroughput) (k : Nat) :
    Searched measure k (passed (SessionSearch.step measure) .new k) :=
  passed_invariant (Searched measure) (searched_new measure) (fun _ _ h => h.step) k

/-- The search breaks off exactly where a count lapses. -/
theorem step_breaks_iff (k : Nat) :
    (SessionSearch.step measure (passed (SessionSearch.step measure) .new k) (k + 1)).2 = true ↔
      Lapses measure (k + 1) := by
  have h := searched_passed measure k
  generalize passed (SessionSearch.step measure) .new k = s at h
  have hdeclines : Declines measure (k + 1) ↔ measure (k + 1) 1 < s.bestTps * (95 / 100) := by
    rw [Declines, Nat.add_sub_cancel, h.bestTps]
  have hlapses : Lapses measure (k + 1) ↔ Declines measure (k + 1) ∧ 1 ≤ s.plateauCount := by
    rw [Lapses, h.plateau]
    simp only [Nat.lt_succ_iff]
  rw [hlapses]
  unfold SessionSearch.step
  dsimp only
  split
  · rename_i hbetter
    have himproves : Improves measure (k + 1) := by
      rwa [Improves, Nat.add_sub_cancel, ← h.bestTps]
    simp only [Bool.false_eq_true, false_iff, not_and]
    exact fun hdecline => absurd himproves hdecline.not_improves
  · split
    · rename_i hbelow
      simp only [hdeclines.mpr hbelow, true_and, decide_eq_true_eq]
      omega
    · rename_i hnear
      simp only [Bool.false_eq_true, false_iff, not_and]
      exact fun hdecline => absurd (hdeclines.mp hdecline) hnear

/-- The count the search returns is the best of those it has passed. -/
theorem Searched.max (h : Searched measure k s) (hpos : 1 ≤ n) (hle : n ≤ k) :
    measure n 1 ≤ measure s.bestN 1 := by
  have hbelow : measure n 1 ≤ s.bestTps := h.bestTps ▸ le_bestUpTo hpos hle
  rcases h.reached with hzero | hreached
  · rw [hzero] at hbelow
    exact hbelow.trans zero_le
  · rwa [hreached]

end Search

/-- The search keeps to its rule exactly when a second decline never stops it early: where
two declines come without a better count between them, two in a row have come by then. -/
theorem detectOptimalSessions_stopsByRule_iff (measure : PoolThroughput) (maxSessions : Int) :
    StopsByRule measure maxSessions (detectOptimalSessions measure maxSessions) ↔
      ∀ n : Nat, (n : Int) < maxSessions → Lapses measure n →
        ∃ k < n, Declines measure k ∧ Declines measure (k + 1) := by
  obtain ⟨k, hloop, hleaves⟩ :=
    forBreak_leaves (SessionSearch.step measure) .new maxSessions.toNat
  obtain ⟨hkept, hbroke⟩ := hleaves.iff (Lapses measure) fun i => step_breaks_iff i
  have hsearched := searched_passed measure k
  rw [detectOptimalSessions, hloop]
  constructor
  · intro h n hn hlapses
    have hpos : 0 < n := by
      rcases Nat.eq_zero_or_pos n with rfl | hpos
      · exact absurd hlapses.1 not_declines_zero
      · exact hpos
    have hle : k ≤ n := by
      by_contra hlt
      exact hkept n hpos (not_le.mp hlt) hlapses
    obtain ⟨m, hm, hfirst, hsecond⟩ := h.leaves (k + 1) (Nat.lt_succ_self k) (by omega)
    exact ⟨m, by omega, hfirst, hsecond⟩
  · intro h
    refine ⟨fun hmax => ⟨hsearched.pos, ?_⟩, fun n hpos hle => hsearched.max hpos hle, ?_⟩
    · have hone : 1 ≤ k := by
        by_contra hzero
        obtain rfl : k = 0 := by omega
        exact not_declines_zero (hbroke (by omega)).1
      exact hsearched.le.trans (by omega)
    · intro n hlt hmax
      obtain ⟨m, hm, hfirst, hsecond⟩ := h k (by omega) (hbroke (by omega))
      exact ⟨m, by omega, hfirst, hsecond⟩

/-- A count within 5% of the best, between two that are not. -/
def wavering : PoolThroughput := fun n _ =>
  if n = 1 then 100 else if n = 3 then 97 else 90

theorem detectOptimalSessions_stops_early : ¬∀ measure maxSessions,
    StopsByRule measure maxSessions (detectOptimalSessions measure maxSessions) := by
  intro h
  have hmeasured : (detectOptimalSessions wavering 8).2 = 4 := by decide +kernel
  obtain ⟨k, hk, hdeclines⟩ := (h wavering 8).leaves 5 (by omega) (by omega)
  have hapart : ∀ k < 4, ¬(Declines wavering k ∧ Declines wavering (k + 1)) := by decide +kernel
  exact hapart k (by omega) hdeclines

end LibEmbedding
