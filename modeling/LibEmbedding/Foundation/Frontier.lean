import LibEmbedding.Foundation.Checked

/-!
# A frontier searched by bisection

Items `0, 1, …` come one after another. A frontier keeps those that nothing in it covers and gives
up those that a new one covers. Only the items of a first part, found by bisection, are asked
whether they cover the new item, which then goes to the end of that part. `Stands` says without
a frontier which items are left; as long as the order of the frontier is kept, the sweep marks
the items that an item before them covers.
-/

namespace LibEmbedding.Foundation

-- ---------------------------------------------------------------------------
-- Bisection
-- ---------------------------------------------------------------------------

/-- The loop on `lo < hi`; every iteration shortens the range. -/
def bisect (p : Nat → Bool) : Nat → Nat → Nat → Nat
  | 0, lo, _ => lo
  | fuel + 1, lo, hi =>
    if lo < hi then
      let mid := lo + (hi - lo) / 2
      if p mid then bisect p fuel (mid + 1) hi else bisect p fuel lo mid
    else lo

def partitionPoint (p : α → Bool) (l : List α) : Nat :=
  bisect (fun i => (l[i]?.map p).getD false) l.length 0 l.length

theorem bisect_eq {p : Nat → Bool} {k : Nat} (hbefore : ∀ i < k, p i = true)
    (hafter : ∀ i, k ≤ i → p i = false) {fuel lo hi : Nat} (hfuel : hi - lo ≤ fuel) (hlo : lo ≤ k)
    (hhi : k ≤ hi) : bisect p fuel lo hi = k := by
  induction fuel generalizing lo hi with
  | zero =>
    rw [bisect]
    omega
  | succ fuel ih =>
    rw [bisect]
    split
    · dsimp only
      split
      · rename_i hmid
        have hlt : lo + (hi - lo) / 2 < k := by
          by_contra hge
          rw [hafter _ (not_lt.mp hge)] at hmid
          cases hmid
        exact ih (by omega) (by omega) hhi
      · rename_i hmid
        have hge : k ≤ lo + (hi - lo) / 2 := by
          by_contra hlt
          exact hmid (hbefore _ (not_le.mp hlt))
        exact ih (by omega) hlo hge
    · omega

/-- The point of a list that meets the condition up to it and not after it. -/
theorem partitionPoint_append {p : α → Bool} {front back : List α} (hfront : ∀ x ∈ front, p x)
    (hback : ∀ x ∈ back, p x = false) : partitionPoint p (front ++ back) = front.length := by
  refine bisect_eq (fun i hi => ?_) (fun i hi => ?_) le_rfl (Nat.zero_le _) (by simp)
  · rw [List.getElem?_append_left hi, List.getElem?_eq_getElem hi]
    exact hfront _ (List.getElem_mem hi)
  · rw [List.getElem?_append_right hi]
    cases hget : back[i - front.length]? with
    | none => rfl
    | some x => exact hback x (List.mem_of_getElem? hget)

theorem partitionPoint_congr {p q : α → Bool} {l : List α} (h : ∀ x ∈ l, p x = q x) :
    partitionPoint p l = partitionPoint q l := by
  unfold partitionPoint
  refine congrArg (fun r => bisect r l.length 0 l.length) (funext fun i => ?_)
  cases hget : l[i]? with
  | none => rfl
  | some x => exact h x (List.mem_of_getElem? hget)

theorem partitionPoint_map (p : β → Bool) (f : α → β) (l : List α) :
    partitionPoint p (l.map f) = partitionPoint (fun x => p (f x)) l := by
  unfold partitionPoint
  rw [List.length_map]
  refine congrArg (fun q => bisect q l.length 0 l.length) (funext fun i => ?_)
  rw [List.getElem?_map, Option.map_map]
  rfl

theorem append_filter_of_pairwise {p : α → Bool} {l : List α}
    (h : l.Pairwise fun x y => p y → p x) : l.filter p ++ l.filter (fun x => !p x) = l := by
  induction l with
  | nil => rfl
  | cons x l ih =>
    obtain ⟨hx, hl⟩ := List.pairwise_cons.mp h
    cases hp : p x with
    | true => rw [List.filter_cons_of_pos hp, List.filter_cons_of_neg (by simp [hp]),
        List.cons_append, ih hl]
    | false =>
      have hnone : l.filter p = [] := by
        rw [List.filter_eq_nil_iff]
        intro y hy hpy
        rw [hx y hy hpy] at hp
        cases hp
      have hall : l.filter (fun x => !p x) = l := by
        have hsplit := ih hl
        rwa [hnone, List.nil_append] at hsplit
      rw [List.filter_cons_of_neg (by simp [hp]), List.filter_cons_of_pos (by simp [hp]), hnone,
        hall]
      rfl

/-- A list in which the condition never comes back splits at its point. -/
theorem split_of_pairwise {p : α → Bool} {l : List α} (h : l.Pairwise fun x y => p y → p x) :
    ∃ front back, l = front ++ back ∧ (∀ x ∈ front, p x = true) ∧ ∀ x ∈ back, p x = false := by
  refine ⟨l.filter p, l.filter (fun x => !p x), (append_filter_of_pairwise h).symm,
    fun x hx => (List.mem_filter.mp hx).2, fun x hx => ?_⟩
  simpa using (List.mem_filter.mp hx).2

-- ---------------------------------------------------------------------------
-- The sweep
-- ---------------------------------------------------------------------------

section

variable (covers reaches : Nat → Nat → Bool)

/-- Whether the frontier covers item `i`, and the next frontier. The place of the new item is
found before the items it covers are taken out. -/
def sweepStep (frontier : List Nat) (i : Nat) : Checked (Bool × List Nat) := do
  let lo := partitionPoint (reaches · i) frontier
  if (frontier.take lo).any (covers · i) then return (true, frontier)
  else
    let kept := frontier.filter fun x => !covers i x
    ensure (lo ≤ kept.length) .outOfBounds
    return (false, kept.take lo ++ i :: kept.drop lo)

/-- The marks of the first `n` items and the frontier after them. -/
def sweep (n : Nat) : Checked (List Bool × List Nat) :=
  forUpTo n (fun s i => do
    let (covered, frontier) ← sweepStep covers reaches s.2 i
    return (s.1 ++ [covered], frontier)) ([], [])

/-- No item before `i` covers it. -/
def free (i : Nat) : Bool := (List.range i).all fun k => !covers k i

theorem free_iff {covers : Nat → Nat → Bool} :
    free covers i = true ↔ ∀ k < i, covers k i = false := by
  simp [free]

/-- At item `i`, a free item before it that no free item between them covers. -/
def Stands (i x : Nat) : Prop :=
  x < i ∧ free covers x ∧ ∀ y, x < y → y < i → free covers y → covers y x = false

/-- Where two standing items are in a frontier: a later one comes after what reaches it. -/
def Ahead (x y : Nat) : Prop :=
  x < y ∧ reaches x y = true ∨ y < x ∧ reaches y x = false

/-- No step disturbs the frontier: a free item covers nothing before its place, and what stands
at an item reaches it up to some place and not after. -/
structure KeepsOrder (n : Nat) : Prop where
  place : ∀ i < n, free covers i → ∀ x, Stands covers i x → reaches x i → covers i x = false
  parted : ∀ i < n, ∀ x y, Stands covers i x → Stands covers i y → Ahead reaches x y →
    reaches y i → reaches x i

/-- Every item that is covered is covered by one that stands. -/
def StaysCovered (n : Nat) : Prop :=
  ∀ i < n, free covers i = false → ∃ x, Stands covers i x ∧ covers x i

end

variable {covers reaches : Nat → Nat → Bool} {frontier : List Nat} {i n : Nat}

theorem not_stands_zero : x ∈ ([] : List Nat) ↔ Stands covers 0 x :=
  iff_of_false List.not_mem_nil fun h => Nat.not_lt_zero x h.1

theorem stands_succ_of_free (hfree : free covers i) :
    Stands covers (i + 1) x ↔ x = i ∨ Stands covers i x ∧ covers i x = false := by
  constructor
  · rintro ⟨hlt, hx, hkept⟩
    rcases Nat.lt_succ_iff_lt_or_eq.mp hlt with hlt | rfl
    · exact .inr ⟨⟨hlt, hx, fun y hxy hyi => hkept y hxy (Nat.lt_succ_of_lt hyi)⟩,
        hkept i hlt (Nat.lt_succ_self i) hfree⟩
    · exact .inl rfl
  · rintro (rfl | ⟨⟨hlt, hx, hkept⟩, hi⟩)
    · exact ⟨Nat.lt_succ_self x, hfree, fun y hxy hyx => absurd hxy (by omega)⟩
    · refine ⟨Nat.lt_succ_of_lt hlt, hx, fun y hxy hyi hy => ?_⟩
      rcases Nat.lt_succ_iff_lt_or_eq.mp hyi with hyi | rfl
      · exact hkept y hxy hyi hy
      · exact hi

theorem stands_succ_of_covered (hcovered : free covers i = false) :
    Stands covers (i + 1) x ↔ Stands covers i x := by
  constructor
  · rintro ⟨hlt, hx, hkept⟩
    rcases Nat.lt_succ_iff_lt_or_eq.mp hlt with hlt | rfl
    · exact ⟨hlt, hx, fun y hxy hyi => hkept y hxy (Nat.lt_succ_of_lt hyi)⟩
    · rw [hx] at hcovered
      cases hcovered
  · rintro ⟨hlt, hx, hkept⟩
    refine ⟨Nat.lt_succ_of_lt hlt, hx, fun y hxy hyi hy => ?_⟩
    rcases Nat.lt_succ_iff_lt_or_eq.mp hyi with hyi | rfl
    · exact hkept y hxy hyi hy
    · rw [hy] at hcovered
      cases hcovered

/-- A step that marks its item rightly keeps the frontier what stands. -/
theorem sweepStep_stands (hfrontier : ∀ x, x ∈ frontier ↔ Stands covers i x)
    (h : sweepStep covers reaches frontier i = .ok (covered, next))
    (hmark : covered = !free covers i) (x : Nat) : x ∈ next ↔ Stands covers (i + 1) x := by
  unfold sweepStep at h
  dsimp only at h
  split at h
  · cases h
    have hcovered : free covers i = false := by simpa using hmark.symm
    rw [stands_succ_of_covered hcovered]
    exact hfrontier x
  · obtain ⟨-, -, h⟩ := bind_ok.mp h
    cases h
    have hfree : free covers i = true := by simpa using hmark.symm
    rw [stands_succ_of_free hfree, ← hfrontier, List.mem_append, List.mem_cons, or_left_comm,
      ← List.mem_append, List.take_append_drop, List.mem_filter, Bool.not_eq_true']

theorem sweepStep_lt (hbound : ∀ x ∈ frontier, x < i)
    (h : sweepStep covers reaches frontier i = .ok r) : ∀ x ∈ r.2, x < i + 1 := by
  intro x hx
  unfold sweepStep at h
  dsimp only at h
  split at h
  · cases h
    exact Nat.lt_succ_of_lt (hbound x hx)
  · obtain ⟨-, -, h⟩ := bind_ok.mp h
    cases h
    rcases List.mem_append.mp hx with hx | hx
    · exact Nat.lt_succ_of_lt (hbound x (List.mem_of_mem_filter (List.mem_of_mem_take hx)))
    · rcases List.mem_cons.mp hx with rfl | hx
      · exact Nat.lt_succ_self x
      · exact Nat.lt_succ_of_lt (hbound x (List.mem_of_mem_filter (List.mem_of_mem_drop hx)))

/-- What a step does with a frontier in two parts. -/
theorem sweepStep_append {front back : List Nat} (hreaches : ∀ x y, covers x y → reaches x y)
    (hfront : ∀ x ∈ front, reaches x i = true) (hback : ∀ x ∈ back, reaches x i = false) :
    sweepStep covers reaches (front ++ back) i =
      if (front ++ back).any (covers · i) then .ok (true, front ++ back)
      else do
        let kept := (front ++ back).filter fun x => !covers i x
        ensure (front.length ≤ kept.length) .outOfBounds
        return (false, kept.take front.length ++ i :: kept.drop front.length) := by
  have hnone : back.any (covers · i) = false := by
    rw [List.any_eq_false]
    intro x hx hcovers
    have hreach := hreaches x i hcovers
    rw [hback x hx] at hreach
    cases hreach
  rw [sweepStep, partitionPoint_append hfront hback, List.take_left, List.any_append, hnone,
    Bool.or_false]
  rfl

/-- A new item that covers nothing before its place goes there. -/
theorem sweepStep_placed {front back : List Nat} (hreaches : ∀ x y, covers x y → reaches x y)
    (hfront : ∀ x ∈ front, reaches x i = true) (hback : ∀ x ∈ back, reaches x i = false)
    (hnone : ¬(front ++ back).any (covers · i) = true) (hplace : ∀ x ∈ front, covers i x = false) :
    sweepStep covers reaches (front ++ back) i =
      .ok (false, front ++ i :: back.filter fun x => !covers i x) := by
  have hkept : (front ++ back).filter (fun x => !covers i x) =
      front ++ back.filter fun x => !covers i x := by
    rw [List.filter_append, List.filter_eq_self.mpr]
    intro x hx
    rw [hplace x hx]
    rfl
  have hroom : front.length ≤ (front ++ back.filter fun x => !covers i x).length := by
    rw [List.length_append]
    exact Nat.le_add_right _ _
  rw [sweepStep_append hreaches hfront hback, if_neg hnone]
  dsimp only
  rw [hkept, ensure_pos hroom, ok_bind, List.take_left, List.drop_left]
  rfl

/-- The step of a sweep that keeps its order. -/
theorem sweepStep_total (hreaches : ∀ x y, covers x y → reaches x y)
    (horder : KeepsOrder covers reaches n) (hcovered : StaysCovered covers n) (hi : i < n)
    (hfrontier : ∀ x, x ∈ frontier ↔ Stands covers i x)
    (hahead : frontier.Pairwise (Ahead reaches)) :
    ∃ next, sweepStep covers reaches frontier i = .ok (!free covers i, next) ∧
      (∀ x, x ∈ next ↔ Stands covers (i + 1) x) ∧ next.Pairwise (Ahead reaches) := by
  have hparted : frontier.Pairwise fun x y => reaches y i → reaches x i :=
    hahead.imp_of_mem fun {x y} hx hy hxy =>
      horder.parted i hi x y ((hfrontier x).mp hx) ((hfrontier y).mp hy) hxy
  obtain ⟨front, back, rfl, hfront, hback⟩ := split_of_pairwise hparted
  have hstands : ∀ x ∈ front ++ back, Stands covers i x := fun x hx => (hfrontier x).mp hx
  cases hfree : free covers i with
  | false =>
    obtain ⟨x, hx, hxi⟩ := hcovered i hi hfree
    have hany : (front ++ back).any (covers · i) = true :=
      List.any_eq_true.mpr ⟨x, (hfrontier x).mpr hx, hxi⟩
    rw [sweepStep_append hreaches hfront hback, if_pos hany]
    refine ⟨front ++ back, rfl, fun y => ?_, hahead⟩
    rw [stands_succ_of_covered hfree]
    exact hfrontier y
  | true =>
    have hnone : ¬(front ++ back).any (covers · i) = true := by
      rw [List.any_eq_true]
      rintro ⟨x, hx, hxi⟩
      rw [free_iff.mp hfree x (hstands x hx).1] at hxi
      cases hxi
    have hstep := sweepStep_placed hreaches hfront hback hnone fun x hx =>
      horder.place i hi hfree x (hstands x (List.mem_append_left _ hx)) (hfront x hx)
    refine ⟨_, hstep, sweepStep_stands hfrontier hstep (by rw [hfree]; rfl), ?_⟩
    rw [List.pairwise_append] at hahead
    obtain ⟨hfirst, hlast, hbetween⟩ := hahead
    rw [List.pairwise_append, List.pairwise_cons]
    refine ⟨hfirst, ⟨fun y hy => ?_, hlast.sublist List.filter_sublist⟩, fun x hx y hy => ?_⟩
    · have hy := List.mem_of_mem_filter hy
      exact .inr ⟨(hstands y (List.mem_append_right _ hy)).1, hback y hy⟩
    · rcases List.mem_cons.mp hy with rfl | hy
      · exact .inl ⟨(hstands x (List.mem_append_left _ hx)).1, hfront x hx⟩
      · exact hbetween x hx y (List.mem_of_mem_filter hy)

/-- What the marks of `n` items should be. -/
def marks (covers : Nat → Nat → Bool) (n : Nat) : List Bool :=
  (List.range n).map fun i => !free covers i

theorem marks_succ (covers : Nat → Nat → Bool) (n : Nat) :
    marks covers (n + 1) = marks covers n ++ [!free covers n] := by
  rw [marks, List.range_succ, List.map_append]
  rfl

/-- A sweep that keeps its order marks the covered items. -/
theorem sweep_total (hreaches : ∀ x y, covers x y → reaches x y)
    (horder : KeepsOrder covers reaches n) (hcovered : StaysCovered covers n) :
    ∃ frontier, sweep covers reaches n = .ok (marks covers n, frontier) := by
  let inv : Nat → List Bool × List Nat → Prop := fun k s => s.1 = marks covers k ∧
    (∀ x, x ∈ s.2 ↔ Stands covers k x) ∧ s.2.Pairwise (Ahead reaches)
  have hinit : inv 0 ([], []) := ⟨rfl, fun x => not_stands_zero, .nil⟩
  have hstep : ∀ i s, i < n → inv i s → ∃ t, (do
      let (covered, frontier) ← sweepStep covers reaches s.2 i
      return (s.1 ++ [covered], frontier)) = .ok t ∧ inv (i + 1) t := by
    rintro i s hi ⟨hmarks, hfrontier, hahead⟩
    obtain ⟨next, hstep, hstands, hnext⟩ :=
      sweepStep_total hreaches horder hcovered hi hfrontier hahead
    refine ⟨(s.1 ++ [!free covers i], next), ?_, ?_, hstands, hnext⟩
    · rw [hstep]
      rfl
    · rw [marks_succ, hmarks]
  obtain ⟨final, hfinal, hmarks, -, -⟩ := forUpTo_total inv hinit hstep
  exact ⟨final.2, by rw [sweep, hfinal, ← hmarks]⟩

/-- A sweep that marks the covered items has had an item that covers each of them. -/
theorem covered_of_sweep (h : sweep covers reaches n = .ok (marks covers n, frontier)) :
    StaysCovered covers n := by
  let inv : Nat → List Bool × List Nat → Prop := fun k s => s.1.length = k ∧
    (s.1 = marks covers k → (∀ x, x ∈ s.2 ↔ Stands covers k x) ∧ StaysCovered covers k)
  have hinv : inv n (marks covers n, frontier) := by
    refine forUpTo_invariant inv
      ⟨rfl, fun _ => ⟨fun x => not_stands_zero, fun i hi => absurd hi (Nat.not_lt_zero i)⟩⟩ ?_ h
    rintro i s t - ⟨hlength, hright⟩ hbody
    obtain ⟨⟨covered, next⟩, hstep, ht⟩ := bind_ok.mp hbody
    cases ht
    refine ⟨by rw [List.length_append, hlength]; rfl, fun hmarks => ?_⟩
    rw [marks_succ] at hmarks
    obtain ⟨hbefore, hmark⟩ := List.append_inj' hmarks rfl
    have hmark : covered = !free covers i := List.singleton_inj.mp hmark
    obtain ⟨hfrontier, hsofar⟩ := hright hbefore
    refine ⟨sweepStep_stands hfrontier hstep hmark, fun j hj hcovered => ?_⟩
    rcases Nat.lt_succ_iff_lt_or_eq.mp hj with hj | rfl
    · exact hsofar j hj hcovered
    · rw [hcovered] at hmark
      cases hmark
      unfold sweepStep at hstep
      dsimp only at hstep
      split at hstep
      · rename_i hany
        obtain ⟨x, hx, hcovers⟩ := List.any_eq_true.mp hany
        exact ⟨x, (hfrontier x).mp (List.mem_of_mem_take hx), hcovers⟩
      · obtain ⟨-, -, hstep⟩ := bind_ok.mp hstep
        cases hstep
  exact (hinv.2 rfl).2

/-- Whatever becomes of the order, the frontier holds no marked item, and a marked one is covered
by an unmarked one before it. -/
theorem sweep_marked {ms : List Bool} (h : sweep covers reaches n = .ok (ms, frontier)) :
    ms.length = n ∧ (∀ x ∈ frontier, x < n ∧ ms.getD x true = false) ∧
      ∀ i < n, ms.getD i true = true → ∃ x < i, ms.getD x true = false ∧ covers x i = true := by
  refine forUpTo_invariant (fun k (s : List Bool × List Nat) => s.1.length = k ∧
    (∀ x ∈ s.2, x < k ∧ s.1.getD x true = false) ∧ ∀ i < k, s.1.getD i true = true →
      ∃ x < i, s.1.getD x true = false ∧ covers x i = true)
    ⟨rfl, fun x hx => absurd hx List.not_mem_nil, fun i hi => absurd hi (Nat.not_lt_zero i)⟩ ?_ h
  rintro k ⟨ms, frontier⟩ t - ⟨hlength, hfrontier, hmarked⟩ hbody
  obtain ⟨⟨covered, next⟩, hstep, ht⟩ := bind_ok.mp hbody
  cases ht
  have hold (x : Nat) (hx : x < k) : (ms ++ [covered]).getD x true = ms.getD x true := by
    simp [List.getD_eq_getElem?_getD, List.getElem?_append_left (hlength ▸ hx)]
  have hnew : (ms ++ [covered]).getD k true = covered := by
    simp [List.getD_eq_getElem?_getD, ← hlength]
  have hbefore (x : Nat) (hx : x ∈ frontier) :
      x < k + 1 ∧ (ms ++ [covered]).getD x true = false :=
    ⟨Nat.lt_succ_of_lt (hfrontier x hx).1, (hold x (hfrontier x hx).1).trans (hfrontier x hx).2⟩
  have hearlier (i : Nat) (hi : i < k) (hmark : (ms ++ [covered]).getD i true = true) :
      ∃ x < i, (ms ++ [covered]).getD x true = false ∧ covers x i = true := by
    rw [hold i hi] at hmark
    obtain ⟨x, hx, hunmarked, hcovers⟩ := hmarked i hi hmark
    exact ⟨x, hx, (hold x (hx.trans hi)).trans hunmarked, hcovers⟩
  refine ⟨by simp [hlength], ?_⟩
  unfold sweepStep at hstep
  dsimp only at hstep
  split at hstep
  · rename_i hany
    cases hstep
    refine ⟨hbefore, fun i hi hmark => ?_⟩
    rcases Nat.lt_succ_iff_lt_or_eq.mp hi with hi | rfl
    · exact hearlier i hi hmark
    · obtain ⟨x, hx, hcovers⟩ := List.any_eq_true.mp hany
      have hx := hfrontier x (List.mem_of_mem_take hx)
      exact ⟨x, hx.1, (hold x hx.1).trans hx.2, hcovers⟩
  · obtain ⟨-, -, hstep⟩ := bind_ok.mp hstep
    cases hstep
    refine ⟨fun x hx => ?_, fun i hi hmark => ?_⟩
    · rcases List.mem_append.mp hx with hx | hx
      · exact hbefore x (List.mem_of_mem_filter (List.mem_of_mem_take hx))
      · rcases List.mem_cons.mp hx with rfl | hx
        · exact ⟨Nat.lt_succ_self x, hnew⟩
        · exact hbefore x (List.mem_of_mem_filter (List.mem_of_mem_drop hx))
    · rcases Nat.lt_succ_iff_lt_or_eq.mp hi with hi | rfl
      · exact hearlier i hi hmark
      · rw [hnew] at hmark
        cases hmark

end LibEmbedding.Foundation
