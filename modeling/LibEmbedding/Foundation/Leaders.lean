import Mathlib.Tactic

/-!
# Leaders

A search goes through a list and changes its mind only for what scores more than all it has
seen. What it keeps is the first of the best elements, where one scores more than the floor.
-/

namespace LibEmbedding.Foundation

variable {α : Type u} {β : Type v} [LinearOrder β]

/-- `c` scores more than the floor and what stands before it, and no less than what stands
behind it. -/
def Leads (score : α → β) (floor : β) (l : List α) (c : α) : Prop :=
  ∃ before behind, l = before ++ c :: behind ∧ floor < score c ∧
    (∀ b ∈ before, score b < score c) ∧ ∀ b ∈ behind, score b ≤ score c

/-- The score to beat. -/
def standing (score : α → β) (floor : β) (best : Option α) : β := best.elim floor score

def leader (score : α → β) (floor : β) (l : List α) : Option α :=
  l.foldl (fun best c => if standing score floor best < score c then some c else best) none

variable {score : α → β} {floor : β}

theorem Leads.mem (h : Leads score floor l c) : c ∈ l := by
  obtain ⟨before, behind, rfl, -⟩ := h
  exact List.mem_append_right _ List.mem_cons_self

theorem Leads.above (h : Leads score floor l c) : floor < score c := by
  obtain ⟨-, -, -, habove, -⟩ := h
  exact habove

theorem Leads.max (h : Leads score floor l c) (hb : b ∈ l) : score b ≤ score c := by
  obtain ⟨before, behind, rfl, -, hbefore, hbehind⟩ := h
  rcases List.mem_append.mp hb with hleft | hright
  · exact (hbefore b hleft).le
  · rcases List.mem_cons.mp hright with rfl | hlater
    · exact le_rfl
    · exact hbehind b hlater

theorem leader_append (l : List α) (c : α) :
    leader score floor (l ++ [c]) =
      if standing score floor (leader score floor l) < score c then some c
      else leader score floor l := by
  rw [leader, List.foldl_append, List.foldl_cons, List.foldl_nil]
  rfl

/-- One search finds the leader or that there is none. -/
theorem leader_spec (score : α → β) (floor : β) (l : List α) :
    (∀ c, leader score floor l = some c → Leads score floor l c) ∧
      (leader score floor l = none → ∀ b ∈ l, score b ≤ floor) := by
  induction l using List.reverseRecOn with
  | nil => exact ⟨fun c h => (nomatch h), fun _ b hb => absurd hb List.not_mem_nil⟩
  | append_singleton l c ih =>
    obtain ⟨hsome, hnone⟩ := ih
    rw [leader_append]
    have hbelow : ∀ b ∈ l, score b ≤ standing score floor (leader score floor l) := by
      intro b hb
      cases hleader : leader score floor l with
      | none => exact hnone hleader b hb
      | some best => exact (hsome best hleader).max hb
    have hfloor : floor ≤ standing score floor (leader score floor l) := by
      cases hleader : leader score floor l with
      | none => exact le_rfl
      | some best => exact (hsome best hleader).above.le
    by_cases hbeats : standing score floor (leader score floor l) < score c
    · rw [if_pos hbeats]
      refine ⟨fun d hd => ?_, fun h => (nomatch h)⟩
      obtain rfl := Option.some.inj hd
      exact ⟨l, [], rfl, hfloor.trans_lt hbeats, fun b hb => (hbelow b hb).trans_lt hbeats,
        fun b hb => absurd hb List.not_mem_nil⟩
    · rw [if_neg hbeats]
      constructor
      · intro best hbest
        obtain ⟨before, behind, rfl, habove, hbefore, hbehind⟩ := hsome best hbest
        refine ⟨before, behind ++ [c], by simp, habove, hbefore, fun b hb => ?_⟩
        rcases List.mem_append.mp hb with hearlier | hlast
        · exact hbehind b hearlier
        · obtain rfl := List.mem_singleton.mp hlast
          rw [hbest] at hbeats
          exact not_lt.mp hbeats
      · intro hleader b hb
        rcases List.mem_append.mp hb with hearlier | hlast
        · exact hnone hleader b hearlier
        · obtain rfl := List.mem_singleton.mp hlast
          rw [hleader] at hbeats
          exact not_lt.mp hbeats

theorem leader_eq_none_iff : leader score floor l = none ↔ ∀ b ∈ l, score b ≤ floor := by
  refine ⟨(leader_spec score floor l).2, fun h => ?_⟩
  cases hleader : leader score floor l with
  | none => rfl
  | some c =>
    have hlead := (leader_spec score floor l).1 c hleader
    exact absurd hlead.above (not_lt.mpr (h c hlead.mem))

/-- A list has one leader. -/
theorem Leads.unique (h : Leads score floor l c) (h' : Leads score floor l d) : c = d := by
  obtain ⟨before, behind, rfl, -, hbefore, hbehind⟩ := h
  obtain ⟨before', behind', heq, -, hbefore', hbehind'⟩ := h'
  rcases List.append_eq_append_iff.mp heq with ⟨gap, rfl, hgap⟩ | ⟨gap, rfl, hgap⟩
  · cases gap with
    | nil => exact (List.cons.inj hgap).1
    | cons e gap =>
      obtain ⟨rfl, rfl⟩ := List.cons.inj hgap
      have hlater := hbehind d (List.mem_append_right _ List.mem_cons_self)
      exact absurd (hbefore' c (List.mem_append_right _ List.mem_cons_self)) (not_lt.mpr hlater)
  · cases gap with
    | nil => exact (List.cons.inj hgap).1.symm
    | cons e gap =>
      obtain ⟨rfl, rfl⟩ := List.cons.inj hgap
      have hlater := hbehind' c (List.mem_append_right _ List.mem_cons_self)
      exact absurd (hbefore d (List.mem_append_right _ List.mem_cons_self)) (not_lt.mpr hlater)

theorem leader_eq_some_iff : leader score floor l = some c ↔ Leads score floor l c := by
  refine ⟨(leader_spec score floor l).1 c, fun h => ?_⟩
  cases hleader : leader score floor l with
  | none => exact absurd h.above (not_lt.mpr (leader_eq_none_iff.mp hleader c h.mem))
  | some d => rw [((leader_spec score floor l).1 d hleader).unique h]

/-- Where no two elements score the same, their order does not matter. -/
theorem leader_perm {l l' : List α} (hperm : l'.Perm l) (hdistinct : (l.map score).Nodup) :
    leader score floor l' = leader score floor l := by
  cases hleader : leader score floor l with
  | none =>
    rw [leader_eq_none_iff] at hleader ⊢
    exact fun b hb => hleader b (hperm.mem_iff.mp hb)
  | some c =>
    have hlead := leader_eq_some_iff.mp hleader
    cases hother : leader score floor l' with
    | none =>
      have hbelow := leader_eq_none_iff.mp hother c (hperm.mem_iff.mpr hlead.mem)
      exact absurd hlead.above (not_lt.mpr hbelow)
    | some d =>
      have hlead' := leader_eq_some_iff.mp hother
      have hmem := hperm.mem_iff.mp hlead'.mem
      have hsame := le_antisymm (hlead.max hmem) (hlead'.max (hperm.mem_iff.mpr hlead.mem))
      rw [List.inj_on_of_nodup_map hdistinct hmem hlead.mem hsame]

/-- A search that keeps elements instead of scores, from one that stands for none. -/
theorem foldl_eq_leader (init : α) (l : List α) :
    l.foldl (fun best c => if score best < score c then c else best) init =
      (leader score (score init) l).getD init := by
  have hstanding (best : Option α) :
      standing score (score init) best = score (best.getD init) := by
    cases best with
    | none => rfl
    | some c => rfl
  induction l using List.reverseRecOn with
  | nil => rfl
  | append_singleton l c ih =>
    rw [List.foldl_append, List.foldl_cons, List.foldl_nil, ih, leader_append, hstanding]
    split
    · rfl
    · rfl

/-- What scores no more than the floor may as well be left out. -/
theorem leader_filter {p : α → Bool} {l : List α} (h : ∀ x ∈ l, p x = false → score x ≤ floor) :
    leader score floor (l.filter p) = leader score floor l := by
  induction l using List.reverseRecOn with
  | nil => rfl
  | append_singleton l c ih =>
    have hsame := ih fun x hx => h x (List.mem_append_left _ hx)
    rw [List.filter_append, leader_append]
    cases hp : p c with
    | true => rw [List.filter_cons_of_pos hp, List.filter_nil, leader_append, hsame]
    | false =>
      have hlow : score c ≤ standing score floor (leader score floor l) := by
        refine (h c (List.mem_append_right _ List.mem_cons_self) hp).trans ?_
        cases hleader : leader score floor l with
        | none => exact le_rfl
        | some best => exact (leader_eq_some_iff.mp hleader).above.le
      rw [List.filter_cons_of_neg (by simp [hp]), List.filter_nil, List.append_nil, hsame,
        if_neg (not_lt.mpr hlow)]

/-- Two scores that order a list alike, and are all above their floors, have one leader. -/
theorem leader_congr {γ : Type w} [LinearOrder γ] {score' : α → γ} {floor' : γ} {l : List α}
    (habove : ∀ x ∈ l, floor < score x ∧ floor' < score' x)
    (halike : ∀ x ∈ l, ∀ y ∈ l, score x < score y ↔ score' x < score' y) :
    leader score floor l = leader score' floor' l := by
  refine Option.ext fun c => ?_
  rw [leader_eq_some_iff, leader_eq_some_iff]
  constructor
  · rintro ⟨before, behind, rfl, -, hbefore, hbehind⟩
    have hc : c ∈ before ++ c :: behind := List.mem_append_right _ List.mem_cons_self
    refine ⟨before, behind, rfl, (habove c hc).2, fun b hb => ?_, fun b hb => ?_⟩
    · exact (halike b (List.mem_append_left _ hb) c hc).mp (hbefore b hb)
    · rw [← not_lt, ← halike c hc b (List.mem_append_right _ (List.mem_cons_of_mem c hb)), not_lt]
      exact hbehind b hb
  · rintro ⟨before, behind, rfl, -, hbefore, hbehind⟩
    have hc : c ∈ before ++ c :: behind := List.mem_append_right _ List.mem_cons_self
    refine ⟨before, behind, rfl, (habove c hc).1, fun b hb => ?_, fun b hb => ?_⟩
    · exact (halike b (List.mem_append_left _ hb) c hc).mpr (hbefore b hb)
    · rw [← not_lt, halike c hc b (List.mem_append_right _ (List.mem_cons_of_mem c hb)), not_lt]
      exact hbehind b hb

end LibEmbedding.Foundation
