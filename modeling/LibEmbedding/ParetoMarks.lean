import LibEmbedding.ParetoFrontier

/-!
# When the frontier marks the dominated candidates

The sort needs its comparison to be a strict weak order on the candidates, and the sweep an
order of the frontier that its insertions and removals keep. Where both hold, the marks are
those of the pairwise check as long as every dominated candidate is dominated by one that
stands.
-/

namespace LibEmbedding

open Foundation Candidate

/-- The candidates as the sort gets them. -/
def fresh (cands : List Candidate) : List Candidate := cands.map (·.mark false)

/-- The orders a conforming sort may leave. -/
def Allows (cands order : List Candidate) : Prop :=
  order.Perm (fresh cands) ∧ order.Pairwise (InOrder goesBefore)

/-- Nothing of what the sweep of an order relies on goes wrong. -/
structure SoundOrder (order : List Candidate) : Prop where
  keeps : KeepsOrder (coversAt order) (reachesAt order) order.length
  covered : StaysCovered (coversAt order) order.length

def Sound (cands : List Candidate) : Prop :=
  cands.length ≤ 1 ∨ StrictWeak goesBefore (fresh cands) ∧
    ∀ order, Allows cands order → SoundOrder order

variable {cands order : List Candidate}

-- ---------------------------------------------------------------------------
-- The pairwise check
-- ---------------------------------------------------------------------------

/-- The check reads no marks. -/
theorem checkPairs_fresh (cands : List Candidate) : checkPairs (fresh cands) = checkPairs cands := by
  have hsame : ∀ c : Candidate, (∃ d ∈ fresh cands, d.Dominates c) ↔ ∃ d ∈ cands, d.Dominates c := by
    intro c
    constructor
    · rintro ⟨_, hd, hdominates⟩
      obtain ⟨d, hmem, rfl⟩ := List.mem_map.mp hd
      exact ⟨d, hmem, hdominates⟩
    · rintro ⟨d, hd, hdominates⟩
      exact ⟨_, List.mem_map_of_mem hd, hdominates⟩
  unfold checkPairs
  simp only [hsame]
  rw [fresh, List.map_map]
  rfl

theorem checkPairs_perm {l l' : List Candidate} (h : l.Perm l') :
    (checkPairs l).Perm (checkPairs l') := by
  unfold checkPairs
  simp only [h.mem_iff]
  exact h.map _

theorem Allows.perm (h : Allows cands order) : (checkPairs order).Perm (checkPairs cands) := by
  rw [← checkPairs_fresh cands]
  exact checkPairs_perm h.1

theorem unmarked_of_perm (hperm : order.Perm (fresh cands)) (hc : c ∈ order) :
    c.mark false = c := by
  obtain ⟨d, -, rfl⟩ := List.mem_map.mp (hperm.mem_iff.mp hc)
  rfl

theorem markWith_nil_of_perm (hperm : order.Perm (fresh cands)) : markWith order [] = order := by
  refine List.ext_getElem? fun i => ?_
  rw [getElem?_markWith]
  cases hget : order[i]? with
  | none => rfl
  | some c => exact congrArg some (unmarked_of_perm hperm (List.mem_of_getElem? hget))

/-- In an order, the dominated candidates are those that an earlier one covers. -/
theorem dominated_iff (hsorted : order.Pairwise (InOrder goesBefore)) (hget : order[i]? = some c) :
    (∃ d ∈ order, d.Dominates c) ↔ free (coversAt order) i = false := by
  have hfree : free (coversAt order) i = false ↔ ∃ k < i, coversAt order k i = true := by
    rw [← Bool.not_eq_true, free_iff]
    push Not
    simp
  rw [hfree]
  obtain ⟨hi, hc⟩ := List.getElem?_eq_some_iff.mp hget
  constructor
  · rintro ⟨d, hd, hdominates⟩
    obtain ⟨k, hk, rfl⟩ := List.getElem_of_mem hd
    rcases Nat.lt_trichotomy k i with hlt | rfl | hgt
    · have hin := List.pairwise_iff_getElem.mp hsorted k i hk hi hlt
      rw [hc] at hin
      refine ⟨k, hlt, ?_⟩
      rw [coversAt, List.getElem?_eq_getElem hk, hget]
      exact (covers_iff_dominates hin).mpr hdominates
    · rw [hc] at hdominates
      exact absurd hdominates (not_dominates_self c)
    · have hin := List.pairwise_iff_getElem.mp hsorted i k hi hk hgt
      rw [hc] at hin
      exact absurd hdominates (not_dominates hin)
  · rintro ⟨k, hlt, hcovers⟩
    have hk := hlt.trans hi
    have hin := List.pairwise_iff_getElem.mp hsorted k i hk hi hlt
    rw [hc] at hin
    rw [coversAt, List.getElem?_eq_getElem hk, hget] at hcovers
    exact ⟨_, List.getElem_mem hk, (covers_iff_dominates hin).mp hcovers⟩

theorem getD_marks (hsorted : order.Pairwise (InOrder goesBefore)) (hget : order[i]? = some c) :
    (marks (coversAt order) order.length).getD i false =
      decide (∃ d ∈ order, d.Dominates c) := by
  have hi := (List.getElem?_eq_some_iff.mp hget).1
  have hmark : (marks (coversAt order) order.length).getD i false =
      !free (coversAt order) i := by
    rw [marks, List.getD_eq_getElem?_getD, List.getElem?_map, List.getElem?_range hi]
    rfl
  rw [hmark]
  cases hfree : free (coversAt order) i with
  | false =>
    rw [decide_eq_true ((dominated_iff hsorted hget).mpr hfree)]
    rfl
  | true =>
    have hnot : ¬∃ d ∈ order, d.Dominates c := by
      intro hdominated
      rw [(dominated_iff hsorted hget).mp hdominated] at hfree
      cases hfree
    rw [decide_eq_false hnot]
    rfl

/-- The right marks of an order are those of the pairwise check. -/
theorem markWith_marks (hsorted : order.Pairwise (InOrder goesBefore)) :
    markWith order (marks (coversAt order) order.length) = checkPairs order := by
  refine List.ext_getElem? fun i => ?_
  rw [getElem?_markWith, checkPairs, List.getElem?_map]
  cases hget : order[i]? with
  | none => rfl
  | some c =>
    rw [getD_marks hsorted hget]
    rfl

/-- Marks that make the order a permutation of the pairwise check are the right ones. -/
theorem marks_of_perm (h : Allows cands order) {ms : List Bool} (hlength : ms.length = order.length)
    (hperm : (markWith order ms).Perm (checkPairs cands)) :
    ms = marks (coversAt order) order.length := by
  have hmarks : (marks (coversAt order) order.length).length = order.length := by
    rw [marks, List.length_map, List.length_range]
  refine List.ext_getElem (hlength.trans hmarks.symm) fun i hi hi' => ?_
  obtain ⟨c, hget⟩ : ∃ c, order[i]? = some c := ⟨_, List.getElem?_eq_getElem (hlength ▸ hi)⟩
  have hmem : c.mark (ms.getD i false) ∈ markWith order ms := by
    refine List.mem_of_getElem? (i := i) ?_
    rw [getElem?_markWith, hget]
    rfl
  obtain ⟨d, hd, heq⟩ := List.mem_map.mp ((hperm.trans h.perm.symm).mem_iff.mp hmem)
  have hsame : d = c := by
    rw [← unmarked_of_perm h.1 hd, ← unmarked_of_perm h.1 (List.mem_of_getElem? hget)]
    exact congrArg (·.mark false) heq
  have hmark : decide (∃ e ∈ order, e.Dominates d) = ms.getD i false :=
    congrArg Candidate.dominated heq
  have hright := getD_marks h.2 hget
  rw [hsame, ← hright] at hmark
  rw [List.getD_eq_getElem?_getD, List.getD_eq_getElem?_getD, List.getElem?_eq_getElem hi,
    List.getElem?_eq_getElem hi'] at hmark
  exact hmark.symm

-- ---------------------------------------------------------------------------
-- The function
-- ---------------------------------------------------------------------------

/-- Past the sort, the function is the sweep over the order it left. -/
theorem computePareto_of_sort (hlong : 1 < cands.length) (h : Allows cands order)
    (hsort : sorter.sort goesBefore (fresh cands) = .ok order) :
    computePareto sorter cands = (sweep (coversAt order) (reachesAt order) order.length).map
      fun s => markWith order s.1 := by
  have hsize : ¬(fresh cands).length ≤ 1 := by
    rw [fresh, List.length_map]
    omega
  have hloop := (sweepCandidates_eq order le_rfl).1
  rw [markWith_nil_of_perm h.1] at hloop
  change (if (fresh cands).length ≤ 1 then _ else sorter.sort goesBefore (fresh cands) >>= _) = _
  rw [if_neg hsize, hsort, ok_bind, hloop]
  cases sweep (coversAt order) (reachesAt order) order.length with
  | error fault => rfl
  | ok s => rfl

/-- Up to one candidate, none is dominated. -/
theorem marksDominated_of_short (hshort : cands.length ≤ 1) : MarksDominated cands := by
  intro sorter
  refine ⟨fresh cands, ?_, ?_⟩
  · have hsize : (fresh cands).length ≤ 1 := by
      rw [fresh, List.length_map]
      exact hshort
    exact if_pos hsize
  · match cands, hshort with
    | [], _ => exact .nil
    | [c], _ =>
      have hnone : ¬∃ d ∈ [c], d.Dominates c := by
        rintro ⟨d, hd, hdominates⟩
        cases List.mem_singleton.mp hd
        exact not_dominates_self c hdominates
      rw [checkPairs, List.map_singleton, decide_eq_false hnone]
      exact .refl _

theorem marksDominated_of_sound (h : Sound cands) : MarksDominated cands := by
  rcases h with hshort | ⟨hweak, hsound⟩
  · exact marksDominated_of_short hshort
  · rcases Nat.lt_or_ge 1 cands.length with hlong | hshort
    · intro sorter
      obtain ⟨order, hsort, hperm, hsorted⟩ := sorter.sort_spec goesBefore (fresh cands) hweak
      have hallows : Allows cands order := ⟨hperm, hsorted⟩
      obtain ⟨hkeeps, hcovered⟩ := hsound order hallows
      obtain ⟨frontier, hsweep⟩ := sweep_total (reachesAt_of_coversAt order) hkeeps hcovered
      refine ⟨checkPairs order, ?_, hallows.perm⟩
      rw [computePareto_of_sort hlong hallows hsort, hsweep, ← markWith_marks hsorted]
      rfl
    · exact marksDominated_of_short hshort

/-- Without a strict weak order, a sort may do anything. -/
theorem strictWeak_of_marksDominated (hlong : 1 < cands.length) (h : MarksDominated cands) :
    StrictWeak goesBefore (fresh cands) := by
  obtain ⟨out, hout, -⟩ := h trapImpl
  have hsize : ¬(fresh cands).length ≤ 1 := by
    rw [fresh, List.length_map]
    omega
  change (if (fresh cands).length ≤ 1 then _ else trapImpl.sort goesBefore (fresh cands) >>= _) =
    _ at hout
  rw [if_neg hsize] at hout
  obtain ⟨order, hsort, -⟩ := bind_ok.mp hout
  exact trapImpl_ok hsort

/-- A dominated candidate that no standing one covers is not marked. -/
theorem covered_of_marksDominated (hlong : 1 < cands.length) (h : MarksDominated cands)
    (hallows : Allows cands order) : StaysCovered (coversAt order) order.length := by
  obtain ⟨out, hout, hperm⟩ := h (leavingImpl goesBefore (fresh cands) order hallows.1 hallows.2)
  rw [computePareto_of_sort hlong hallows (leavingImpl_sort hallows.1 hallows.2)] at hout
  obtain ⟨⟨ms, frontier⟩, hsweep, rfl⟩ := map_ok.mp hout
  have hlength : ms.length = order.length :=
    ((sweepCandidates_eq order le_rfl).2 (ms, frontier) hsweep).1
  rw [marks_of_perm hallows hlength hperm] at hsweep
  exact covered_of_sweep hsweep

/-- A model that beats another one in everything. -/
def better : List Candidate :=
  [⟨[], [], 9 / 10, 200, 100, 0, 1, 384, false⟩, ⟨[], [], 8 / 10, 100, 200, 0, 1, 384, false⟩]

theorem sound_better : Sound better := by
  have hone : ∀ order ∈ (fresh better).permutations', order.Pairwise (InOrder goesBefore) →
      order = better := by decide +kernel
  have hweak : (∀ a ∈ fresh better, goesBefore a a = false) ∧
      (∀ a ∈ fresh better, ∀ b ∈ fresh better, ∀ c ∈ fresh better,
        goesBefore a b → goesBefore b c → goesBefore a c) ∧
      ∀ a ∈ fresh better, ∀ b ∈ fresh better, ∀ c ∈ fresh better,
        goesBefore a b = false → goesBefore b c = false → goesBefore a c = false := by
    decide +kernel
  have hstands : ∀ i < 2, ∀ x, Stands (coversAt better) i x → i = 1 ∧ x = 0 := by
    rintro i hi x ⟨hlt, -, -⟩
    omega
  refine .inr ⟨⟨hweak.1, hweak.2.1, hweak.2.2⟩, fun order hallows => ?_⟩
  rw [hone order (List.mem_permutations'.mpr hallows.1) hallows.2]
  refine ⟨⟨fun i hi _ x hx _ => ?_, fun i hi x y hx hy _ hreaches => ?_⟩, fun i hi hcovered => ?_⟩
  · obtain ⟨rfl, rfl⟩ := hstands i hi x hx
    decide +kernel
  · rw [(hstands i hi x hx).2, ← (hstands i hi y hy).2]
    exact hreaches
  · match i, hi with
    | 0, _ => cases hcovered
    | 1, _ =>
      refine ⟨0, ⟨Nat.zero_lt_one, rfl, fun y hfirst hlast => ?_⟩, by decide +kernel⟩
      exact absurd (Nat.lt_succ_iff.mp hlast) (Nat.not_le.mpr hfirst)

/-- A large model, and a small one of less quality at the same speed. -/
def tradeOff : List Candidate :=
  [⟨[], [], 9 / 10, 100, 300, 0, 1, 384, false⟩, ⟨[], [], 8 / 10, 100, 100, 0, 1, 384, false⟩]

end LibEmbedding
