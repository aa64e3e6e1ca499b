import LibEmbedding.Foundation.Sorting
import Mathlib.Tactic

/-!
# Comparing with a tolerance

A comparison by a key that leaves what is near to the next criterion. Being near is not
transitive, so the chain of such comparisons need not be a strict weak order: two elements that are
apart can both be near a third one. `Bridged` says where that does no harm.
-/

namespace LibEmbedding.Foundation

-- ---------------------------------------------------------------------------
-- What a sort asks for
-- ---------------------------------------------------------------------------

/-- The four laws that a sort asks of its comparison. -/
structure SortLaws (lt : α → α → Bool) (l : List α) : Prop where
  irrefl : ∀ a ∈ l, lt a a = false
  asymm : ∀ a ∈ l, ∀ b ∈ l, lt a b → lt b a = false
  trans : ∀ a ∈ l, ∀ b ∈ l, ∀ c ∈ l, lt a b → lt b c → lt a c
  incomparable : ∀ a ∈ l, ∀ b ∈ l, ∀ c ∈ l, lt a b = false → lt b a = false →
    lt b c = false → lt c b = false → lt a c = false ∧ lt c a = false

/-- Triples on which not going before is transitive. -/
def CoTrans (P : α → α → α → Prop) (lt : α → α → Bool) : Prop :=
  ∀ a b c, P a b c → lt a b = false → lt b c = false → lt a c = false

/-- The triples of a list. -/
def Among (l : List α) (a b c : α) : Prop := a ∈ l ∧ b ∈ l ∧ c ∈ l

/-- Triples that can start with any of their elements. -/
def Turns (P : α → α → α → Prop) : Prop := ∀ a b c, P a b c → P b c a

/-- A comparison one way round. -/
def OneWay (lt : α → α → Bool) : Prop := ∀ a b, lt a b → lt b a = false

variable {lt : α → α → Bool} {l : List α}

theorem among_turns (l : List α) : Turns (Among l) := fun _ _ _ h => ⟨h.2.1, h.2.2, h.1⟩

theorem OneWay.irrefl (h : OneWay lt) (a : α) : lt a a = false := by
  cases hself : lt a a with
  | false => rfl
  | true =>
    rw [h a a hself] at hself
    cases hself

/-- An element is before one of two that go one before the other, or behind the other one. -/
theorem CoTrans.splits (h : CoTrans (Among l) lt) (ha : a ∈ l) (hb : b ∈ l) (hc : c ∈ l)
    (hac : lt a c) : lt a b ∨ lt b c := by
  by_contra hneither
  obtain ⟨hab, hbc⟩ := not_or.mp hneither
  have hnot := h a b c ⟨ha, hb, hc⟩ (Bool.eq_false_iff.mpr hab) (Bool.eq_false_iff.mpr hbc)
  rw [hac] at hnot
  cases hnot

/-- Of a comparison one way round, the laws are one law. -/
theorem sortLaws_iff_coTrans (hway : OneWay lt) : SortLaws lt l ↔ CoTrans (Among l) lt := by
  constructor
  · rintro ⟨-, -, htrans, hincomparable⟩ a b c ⟨ha, hb, hc⟩ hab hbc
    rw [Bool.eq_false_iff]
    intro hac
    -- An element between `a` and `c` that is neither behind `a` nor before `c` ties with both.
    have hba : lt b a = false := by
      rw [Bool.eq_false_iff]
      intro hba
      have hbefore := htrans b hb a ha c hc hba hac
      rw [hbc] at hbefore
      cases hbefore
    have hcb : lt c b = false := by
      rw [Bool.eq_false_iff]
      intro hcb
      have hbefore := htrans a ha c hc b hb hac hcb
      rw [hab] at hbefore
      cases hbefore
    have hties := (hincomparable a ha b hb c hc hab hba hbc hcb).1
    rw [hac] at hties
    cases hties
  · intro hco
    refine ⟨fun a _ => hway.irrefl a, fun a _ b _ => hway a b, ?_, ?_⟩
    · intro a ha b hb c hc hab hbc
      rcases hco.splits ha hc hb hab with hac | hcb
      · exact hac
      · rw [hway b c hbc] at hcb
        cases hcb
    · intro a ha b hb c hc hab hba hbc hcb
      exact ⟨hco a b c ⟨ha, hb, hc⟩ hab hbc, hco c b a ⟨hc, hb, ha⟩ hcb hba⟩

theorem sortLaws_iff_strictWeak (hway : OneWay lt) : SortLaws lt l ↔ StrictWeak lt l := by
  constructor
  · intro h
    refine ⟨h.irrefl, h.trans, fun a ha b hb c hc => ?_⟩
    exact (sortLaws_iff_coTrans hway).mp h a b c ⟨ha, hb, hc⟩
  · intro h
    rw [sortLaws_iff_coTrans hway]
    exact fun a b c ⟨ha, hb, hc⟩ => h.incomp a ha b hb c hc

/-- A key without a tolerance ends a chain. -/
theorem coTrans_lt [LinearOrder K] (P : α → α → α → Prop) (key : α → K) :
    CoTrans P fun a b => decide (key a < key b) := by
  intro a b c _ hab hbc
  rw [decide_eq_false_iff_not, not_lt] at hab hbc ⊢
  exact hbc.trans hab

theorem oneWay_lt [LinearOrder K] (key : α → K) : OneWay fun a b => decide (key a < key b) := by
  intro a b hab
  exact decide_eq_false (of_decide_eq_true hab).asymm

-- ---------------------------------------------------------------------------
-- A key with a tolerance
-- ---------------------------------------------------------------------------

variable [AddCommGroup K] [LinearOrder K]

/-- The greater key first where the keys are apart, else what the next criterion says. -/
def byKey (key : α → K) (tol : K) (next : α → α → Bool) (a b : α) : Bool :=
  if tol < |key a - key b| then decide (key b < key a) else next a b

def Near (key : α → K) (tol : K) (a b : α) : Prop := |key a - key b| ≤ tol

/-- The three elements are near one another. -/
def AllNear (key : α → K) (tol : K) (P : α → α → α → Prop) (a b c : α) : Prop :=
  P a b c ∧ Near key tol a b ∧ Near key tol b c ∧ Near key tol c a

/-- What is near two elements that are apart goes behind the greater one or before the lesser one
by the next criterion. -/
def Bridged (P : α → α → α → Prop) (key : α → K) (tol : K) (next : α → α → Bool) : Prop :=
  ∀ a b c, P a b c → tol < key a - key c → Near key tol a b → Near key tol b c →
    next a b ∨ next b c

variable {key : α → K} {tol : K} {next : α → α → Bool}

theorem Near.symm (h : Near key tol a b) : Near key tol b a := by
  unfold Near
  rw [abs_sub_comm]
  exact h

theorem not_near : ¬Near key tol a b ↔ tol < key a - key b ∨ tol < key b - key a := by
  rw [Near, not_le, lt_abs, neg_sub]

theorem byKey_near (h : Near key tol a b) : byKey key tol next a b = next a b :=
  if_neg (not_lt.mpr h)

theorem Turns.allNear {P : α → α → α → Prop} (h : Turns P) (key : α → K) (tol : K) :
    Turns (AllNear key tol P) :=
  fun a b c hnear => ⟨h a b c hnear.1, hnear.2.2.1, hnear.2.2.2, hnear.2.1⟩

variable [IsOrderedAddMonoid K]

theorem byKey_of_apart (htol : 0 ≤ tol) (h : tol < key a - key b) :
    byKey key tol next a b = true := by
  rw [byKey, if_pos (lt_of_lt_of_le h (le_abs_self _))]
  exact decide_eq_true (sub_pos.mp (htol.trans_lt h))

/-- What does not go before another one is near it or apart on the other side. -/
theorem byKey_false (htol : 0 ≤ tol) (h : byKey key tol next a b = false) :
    tol < key b - key a ∨ Near key tol a b ∧ next a b = false := by
  by_cases hnear : Near key tol a b
  · rw [byKey_near hnear] at h
    exact .inr ⟨hnear, h⟩
  · rcases not_near.mp hnear with hapart | hapart
    · rw [byKey_of_apart htol hapart] at h
      cases h
    · exact .inl hapart

theorem byKey_true (htol : 0 ≤ tol) (h : byKey key tol next a b = true) :
    tol < key a - key b ∨ Near key tol a b ∧ next a b = true := by
  by_cases hnear : Near key tol a b
  · rw [byKey_near hnear] at h
    exact .inr ⟨hnear, h⟩
  · rcases not_near.mp hnear with hapart | hapart
    · exact .inl hapart
    · rw [byKey, if_pos (not_le.mp hnear), decide_eq_true_eq] at h
      exact absurd (sub_pos.mp (htol.trans_lt hapart)) h.asymm

theorem byKey_oneWay (htol : 0 ≤ tol) (hnext : OneWay next) : OneWay (byKey key tol next) := by
  intro a b hab
  rcases byKey_true htol hab with hapart | ⟨hnear, hab⟩
  · rw [byKey, if_pos (lt_of_lt_of_le hapart (le_abs_self _ |>.trans (abs_sub_comm _ _).le))]
    exact decide_eq_false (sub_pos.mp (htol.trans_lt hapart)).asymm
  · rw [byKey_near hnear.symm]
    exact hnext a b hab

/-- Two steps of more than the tolerance are more than the tolerance. -/
theorem apart_trans (htol : 0 ≤ tol) (hab : tol < key a - key b) (hbc : tol < key b - key c) :
    tol < key a - key c := by
  have hsum : key a - key c = (key a - key b) + (key b - key c) := by abel
  rw [hsum]
  exact lt_add_of_lt_of_nonneg hab (htol.trans hbc.le)

/-- One criterion of the chain: near elements must not bridge a gap against the next criterion,
and the next criterion must be in order among elements that are near one another. -/
theorem coTrans_byKey_iff {P : α → α → α → Prop} (hturn : Turns P) (htol : 0 ≤ tol)
    (hnext : OneWay next) :
    CoTrans P (byKey key tol next) ↔
      Bridged P key tol next ∧ CoTrans (AllNear key tol P) next := by
  constructor
  · intro hco
    refine ⟨fun a b c hP hapart hab hbc => ?_, fun a b c ⟨hP, hab, hbc, hca⟩ hnab hnbc => ?_⟩
    · by_contra hneither
      obtain ⟨hnab, hnbc⟩ := not_or.mp hneither
      have hnab : byKey key tol next a b = false :=
        (byKey_near hab).trans (Bool.eq_false_iff.mpr hnab)
      have hnbc : byKey key tol next b c = false :=
        (byKey_near hbc).trans (Bool.eq_false_iff.mpr hnbc)
      have hnot := hco a b c hP hnab hnbc
      rw [byKey_of_apart htol hapart] at hnot
      cases hnot
    · have hnac : byKey key tol next a c = false :=
        hco a b c hP ((byKey_near hab).trans hnab) ((byKey_near hbc).trans hnbc)
      rw [byKey_near hca.symm] at hnac
      exact hnac
  · rintro ⟨hbridged, hco⟩ a b c hP hnab hnbc
    rw [Bool.eq_false_iff]
    intro hac
    rcases byKey_true htol hac with hapart | ⟨hca, hac⟩
    · rcases byKey_false htol hnab with hba | ⟨hab, hnab⟩
      · have hbc : byKey key tol next b c = true :=
          byKey_of_apart htol (apart_trans htol hba hapart)
        rw [hnbc] at hbc
        cases hbc
      · rcases byKey_false htol hnbc with hcb | ⟨hbc, hnbc⟩
        · exact absurd hab (not_near.mpr (.inl (apart_trans htol hapart hcb)))
        · rcases hbridged a b c hP hapart hab hbc with hab | hbc
          · rw [hnab] at hab
            cases hab
          · rw [hnbc] at hbc
            cases hbc
    · -- The pair is near; `b` apart from one of the two is bridged by the other.
      have hnotca : ¬next c a = true := by
        rw [hnext a c hac]
        exact Bool.false_ne_true
      rcases byKey_false htol hnab with hba | ⟨hab, hnab⟩
      · rcases byKey_false htol hnbc with hcb | ⟨hbc, hnbc⟩
        · exact not_near.mpr (.inl (apart_trans htol hcb hba)) hca.symm
        · rcases hbridged b c a (hturn a b c hP) hba hbc hca.symm with hbc | hca
          · rw [hnbc] at hbc
            cases hbc
          · exact hnotca hca
      · rcases byKey_false htol hnbc with hcb | ⟨hbc, hnbc⟩
        · rcases hbridged c a b (hturn b c a (hturn a b c hP)) hcb hca.symm hab with hca | hab
          · exact hnotca hca
          · rw [hnab] at hab
            cases hab
        · have hnot := hco a b c ⟨hP, hab, hbc, hca.symm⟩ hnab hnbc
          rw [hac] at hnot
          cases hnot

end LibEmbedding.Foundation
