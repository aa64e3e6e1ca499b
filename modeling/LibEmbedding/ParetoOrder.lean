import LibEmbedding.Foundation.Tolerance
import LibEmbedding.ParetoMarks

/-!
# The comparison that the candidates are sorted with

The comparison asks for the quality, then the throughput, then the size, the first two with a
tolerance. It is one way round on any candidates, and a strict weak order on those that are
`Unchained`.
-/

namespace LibEmbedding

open Foundation Candidate

namespace Candidate

/-- The comparison of candidates of near quality. -/
def leadsNear : Candidate → Candidate → Bool :=
  byKey throughput 1 fun a b => decide (a.fileMb < b.fileMb)

theorem goesBefore_eq : goesBefore = byKey quality (1 / 100) leadsNear := rfl

theorem leadsNear_oneWay : OneWay leadsNear := byKey_oneWay zero_le_one (oneWay_lt fileMb)

theorem goesBefore_oneWay : OneWay goesBefore :=
  byKey_oneWay (by norm_num) leadsNear_oneWay

end Candidate

/-- No candidate ties two that are apart. One near both in quality is behind the better or before
the other by throughput and size; among three of near quality, one near two in throughput is so by
size. -/
structure Unchained (cands : List Candidate) : Prop where
  quality : ∀ a ∈ cands, ∀ b ∈ cands, ∀ c ∈ cands, 1 / 100 < a.quality - c.quality →
    |a.quality - b.quality| ≤ 1 / 100 → |b.quality - c.quality| ≤ 1 / 100 →
    leadsNear a b ∨ leadsNear b c
  throughput : ∀ a ∈ cands, ∀ b ∈ cands, ∀ c ∈ cands, |a.quality - b.quality| ≤ 1 / 100 →
    |b.quality - c.quality| ≤ 1 / 100 → |c.quality - a.quality| ≤ 1 / 100 →
    1 < a.throughput - c.throughput → |a.throughput - b.throughput| ≤ 1 →
    |b.throughput - c.throughput| ≤ 1 → a.fileMb < b.fileMb ∨ b.fileMb < c.fileMb

variable {cands : List Candidate}

theorem coTrans_goesBefore_iff : CoTrans (Among cands) goesBefore ↔ Unchained cands := by
  have hturn := among_turns cands
  rw [goesBefore_eq, coTrans_byKey_iff hturn (by norm_num) leadsNear_oneWay, leadsNear,
    coTrans_byKey_iff (hturn.allNear quality (1 / 100)) zero_le_one (oneWay_lt fileMb)]
  constructor
  · rintro ⟨hquality, hthroughput, -⟩
    refine ⟨fun a ha b hb c hc hapart hab hbc => hquality a b c ⟨ha, hb, hc⟩ hapart hab hbc,
      fun a ha b hb c hc hab hbc hca hapart hnear hnear' => ?_⟩
    have hsize := hthroughput a b c ⟨⟨ha, hb, hc⟩, hab, hbc, hca⟩ hapart hnear hnear'
    rwa [decide_eq_true_eq, decide_eq_true_eq] at hsize
  · intro h
    refine ⟨fun a b c ⟨ha, hb, hc⟩ => h.quality a ha b hb c hc,
      fun a b c ⟨⟨ha, hb, hc⟩, hab, hbc, hca⟩ hapart hnear hnear' => ?_, coTrans_lt _ fileMb⟩
    rw [decide_eq_true_eq, decide_eq_true_eq]
    exact h.throughput a ha b hb c hc hab hbc hca hapart hnear hnear'

/-- The marks do not matter. -/
theorem unchained_fresh : Unchained (fresh cands) ↔ Unchained cands := by
  have hmem : ∀ {P : Candidate → Prop}, (∀ c ∈ fresh cands, P c) ↔ ∀ c ∈ cands, P (c.mark false) :=
    List.forall_mem_map
  constructor
  · rintro ⟨hquality, hthroughput⟩
    simp only [hmem] at hquality hthroughput
    exact ⟨hquality, hthroughput⟩
  · rintro ⟨hquality, hthroughput⟩
    constructor
    · simp only [hmem]
      exact hquality
    · simp only [hmem]
      exact hthroughput

theorem strictWeak_goesBefore_iff : StrictWeak goesBefore cands ↔ Unchained cands := by
  rw [← sortLaws_iff_strictWeak goesBefore_oneWay, sortLaws_iff_coTrans goesBefore_oneWay,
    coTrans_goesBefore_iff]

/-- Every conforming sort leaves an order exactly where the candidates are unchained. -/
theorem sorts_iff (cands : List Candidate) :
    (∀ sorter : SortImpl, ∃ order, sorter.sort goesBefore (fresh cands) = .ok order) ↔
      Unchained cands := by
  rw [← unchained_fresh, ← strictWeak_goesBefore_iff]
  constructor
  · intro hsorts
    obtain ⟨order, hsort⟩ := hsorts trapImpl
    exact trapImpl_ok hsort
  · intro hweak sorter
    obtain ⟨order, hsort, -⟩ := sorter.sort_spec goesBefore (fresh cands) hweak
    exact ⟨order, hsort⟩

/-- Each of three models is smaller than the one before, of the same throughput and near in
quality, but the last one is not near the first. -/
def chain : List Candidate :=
  [⟨[], [], 900 / 1000, 100, 300, 0, 1, 384, false⟩,
    ⟨[], [], 893 / 1000, 100, 200, 0, 1, 384, false⟩,
    ⟨[], [], 886 / 1000, 100, 100, 0, 1, 384, false⟩]

end LibEmbedding
