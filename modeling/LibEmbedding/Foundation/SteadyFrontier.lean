import LibEmbedding.Foundation.Frontier

/-!
# When a frontier stays in order

The place of a new item is found by bisection, before the items it covers are taken out. Here the
frontier is to be in descending order of a key, which decides what reaches an item. `survivors`
are the items of a frontier without places; a sweep finds its places and keeps the order exactly
if it is `Steady` by them.
-/

namespace LibEmbedding.Foundation

-- ---------------------------------------------------------------------------
-- Conditions that are read
-- ---------------------------------------------------------------------------

/-- The loop on `lo < hi` with a condition that is read, which stops where the iterations do not
suffice. -/
def bisectRead (p : Nat → Checked Bool) : Nat → Nat → Nat → Checked Nat
  | 0, lo, hi => do
    ensure (hi ≤ lo) .outOfBounds
    return lo
  | fuel + 1, lo, hi =>
    if lo < hi then do
      let mid := lo + (hi - lo) / 2
      let ahead ← p mid
      if ahead then bisectRead p fuel (mid + 1) hi else bisectRead p fuel lo mid
    else return lo

/-- Whether one of the first `n` meets a condition; past it, none is read. -/
def anyRead (p : Nat → Checked Bool) (n : Nat) : Checked Bool :=
  forUpTo n (fun found k => if found then return true else p k) false

/-- The elements that meet a condition that is read. -/
def filterRead (p : α → Checked Bool) : List α → Checked (List α)
  | [] => return []
  | x :: l => do
    let keep ← p x
    let kept ← filterRead p l
    return if keep then x :: kept else kept

/-- The bisection reads inside its range only, and ends. -/
theorem bisectRead_eq {p : Nat → Checked Bool} {q : Nat → Bool} {fuel lo hi : Nat}
    (hp : ∀ i < hi, p i = .ok (q i)) (hfuel : hi - lo ≤ fuel) :
    bisectRead p fuel lo hi = .ok (bisect q fuel lo hi) := by
  induction fuel generalizing lo hi with
  | zero =>
    rw [bisectRead, ensure_pos (Nat.sub_eq_zero_iff_le.mp (Nat.le_zero.mp hfuel))]
    rfl
  | succ fuel ih =>
    rw [bisectRead, bisect]
    split
    · dsimp only
      rw [hp _ (by omega), ok_bind]
      split
      · exact ih hp (by omega)
      · exact ih (fun i hlt => hp i (by omega)) (by omega)
    · rfl

theorem bisect_le {q : Nat → Bool} {fuel lo hi : Nat} (h : lo ≤ hi) : bisect q fuel lo hi ≤ hi := by
  induction fuel generalizing lo hi with
  | zero => exact h
  | succ fuel ih =>
    rw [bisect]
    split
    · dsimp only
      split
      · exact ih (by omega)
      · exact (ih (by omega)).trans (by omega)
    · exact h

theorem partitionPoint_le (p : α → Bool) (l : List α) : partitionPoint p l ≤ l.length :=
  bisect_le (Nat.zero_le _)

theorem anyRead_eq {p : Nat → Checked Bool} {q : α → Bool} {l : List α}
    (hp : ∀ i x, l[i]? = some x → p i = .ok (q x)) {n : Nat} (hn : n ≤ l.length) :
    anyRead p n = .ok ((l.take n).any q) := by
  unfold anyRead
  induction n with
  | zero => rfl
  | succ n ih =>
    have hget : l[n]? = some l[n] := List.getElem?_eq_getElem hn
    rw [forUpTo_succ, ih (Nat.le_of_succ_le hn), ok_bind, List.take_add_one, List.any_append, hget]
    cases (l.take n).any q with
    | true => rfl
    | false =>
      change p n = _
      rw [hp n _ hget]
      simp

theorem filterRead_eq {p : α → Checked Bool} {q : α → Bool} {l : List α}
    (hp : ∀ x ∈ l, p x = .ok (q x)) : filterRead p l = .ok (l.filter q) := by
  induction l with
  | nil => rfl
  | cons x l ih =>
    obtain ⟨hx, hl⟩ := List.forall_mem_cons.mp hp
    rw [filterRead, hx, ok_bind, ih hl, ok_bind, List.filter_cons]
    rfl

-- ---------------------------------------------------------------------------
-- The items of a frontier
-- ---------------------------------------------------------------------------

section

variable (covers reaches : Nat → Nat → Bool) (key : Nat → K)

/-- What is left before item `i`: an item that one of them covers changes nothing, and any other
takes out those it covers. -/
def survivors : Nat → List Nat
  | 0 => []
  | i + 1 =>
    let before := survivors i
    if before.any (covers · i) then before else i :: before.filter fun x => !covers i x

variable [LinearOrder K]

/-- An item is covered, or what reaches it has its key at least and is not covered by it. -/
def SteadyAt (i : Nat) : Prop :=
  (∃ x ∈ survivors covers i, covers x i) ∨
    ∀ x ∈ survivors covers i, reaches x i → key i ≤ key x ∧ covers i x = false

def Steady (n : Nat) : Prop := ∀ i < n, SteadyAt covers reaches key i

def Descending (frontier : List Nat) : Prop := frontier.Pairwise fun x y => key y ≤ key x

/-- The key decides what reaches an item: from some key on, at most its own. -/
structure Reaching (n : Nat) : Prop where
  covering : ∀ x y, covers x y → reaches x y
  level : ∀ x < n, ∀ i < n, key i ≤ key x → reaches x i
  upward : ∀ x < n, ∀ y < n, ∀ i < n, key y ≤ key x → reaches y i → reaches x i

end

variable {covers reaches : Nat → Nat → Bool} [LinearOrder K] {key : Nat → K} {frontier : List Nat}
  {i n : Nat}

theorem survivors_lt (hx : x ∈ survivors covers i) : x < i := by
  induction i with
  | zero => cases hx
  | succ i ih =>
    rw [survivors] at hx
    split at hx
    · exact Nat.lt_succ_of_lt (ih hx)
    · rcases List.mem_cons.mp hx with rfl | hx
      · exact Nat.lt_succ_self x
      · exact Nat.lt_succ_of_lt (ih (List.mem_of_mem_filter hx))

/-- The survivors before an item are in the frontier, in order. -/
structure KeptInOrder (covers : Nat → Nat → Bool) (key : Nat → K) (i : Nat)
    (frontier : List Nat) : Prop where
  items : ∀ x, x ∈ frontier ↔ x ∈ survivors covers i
  descending : Descending key frontier

/-- A frontier in order is what reaches an item, and behind it what does not. -/
theorem KeptInOrder.split (h : KeptInOrder covers key i frontier)
    (hreaching : Reaching covers reaches key n) (hi : i < n) :
    ∃ front back, frontier = front ++ back ∧ (∀ x ∈ front, reaches x i = true) ∧
      ∀ x ∈ back, reaches x i = false := by
  have hlt : ∀ x ∈ frontier, x < n := fun x hx => (survivors_lt ((h.items x).mp hx)).trans hi
  refine split_of_pairwise (h.descending.imp_of_mem fun {x y} hx hy hxy => ?_)
  exact hreaching.upward x (hlt x hx) y (hlt y hy) i hi hxy

theorem KeptInOrder.covered (h : KeptInOrder covers key i frontier)
    (hany : frontier.any (covers · i) = true) : KeptInOrder covers key (i + 1) frontier := by
  have hsame : survivors covers (i + 1) = survivors covers i := by
    obtain ⟨x, hx, hcovers⟩ := List.any_eq_true.mp hany
    exact if_pos (List.any_eq_true.mpr ⟨x, (h.items x).mp hx, hcovers⟩)
  exact ⟨fun x => by rw [hsame, h.items], h.descending⟩

/-- A steady step succeeds and keeps the order. -/
theorem KeptInOrder.step (h : KeptInOrder covers key i frontier)
    (hreaching : Reaching covers reaches key n) (hi : i < n)
    (hsteady : SteadyAt covers reaches key i) :
    ∃ r, sweepStep covers reaches frontier i = .ok r ∧ KeptInOrder covers key (i + 1) r.2 := by
  obtain ⟨front, back, rfl, hfront, hback⟩ := h.split hreaching hi
  by_cases hany : (front ++ back).any (covers · i) = true
  · rw [sweepStep_append hreaching.covering hfront hback, if_pos hany]
    exact ⟨_, rfl, h.covered hany⟩
  · have hbefore : ¬(survivors covers i).any (covers · i) = true := by
      rw [List.any_eq_true] at hany ⊢
      rintro ⟨x, hx, hcovers⟩
      exact hany ⟨x, (h.items x).mpr hx, hcovers⟩
    have hplace : ∀ x ∈ front, key i ≤ key x ∧ covers i x = false := by
      rcases hsteady with ⟨x, hx, hcovers⟩ | hsteady
      · exact absurd (List.any_eq_true.mpr ⟨x, hx, hcovers⟩) hbefore
      · exact fun x hx =>
          hsteady x ((h.items x).mp (List.mem_append_left _ hx)) (hfront x hx)
    refine ⟨_, sweepStep_placed hreaching.covering hfront hback hany fun x hx => (hplace x hx).2,
      fun x => ?_, ?_⟩
    · have hkept : front.filter (fun x => !covers i x) = front := by
        rw [List.filter_eq_self]
        intro x hx
        rw [(hplace x hx).2]
        rfl
      have hnext : survivors covers (i + 1) =
          i :: (survivors covers i).filter fun x => !covers i x := if_neg hbefore
      have hleft : x ∈ (survivors covers i).filter (fun x => !covers i x) ↔
          x ∈ (front ++ back).filter fun x => !covers i x := by
        rw [List.mem_filter, List.mem_filter, h.items]
      rw [hnext, List.mem_append, List.mem_cons, or_left_comm, ← List.mem_append, List.mem_cons,
        hleft, List.filter_append, hkept]
    · obtain ⟨hfirst, hlast, hbetween⟩ := List.pairwise_append.mp h.descending
      refine List.pairwise_append.mpr ⟨hfirst, List.pairwise_cons.mpr ⟨fun y hy => ?_,
        hlast.sublist List.filter_sublist⟩, fun x hx y hy => ?_⟩
      · have hy := List.mem_of_mem_filter hy
        by_contra hgt
        have hlt := survivors_lt ((h.items y).mp (List.mem_append_right _ hy))
        have hreaches := hreaching.level y (hlt.trans hi) i hi (not_le.mp hgt).le
        rw [hback y hy] at hreaches
        cases hreaches
      · rcases List.mem_cons.mp hy with rfl | hy
        · exact (hplace x hx).1
        · exact hbetween x hx y (List.mem_of_mem_filter hy)

/-- A step that succeeds and leaves the frontier in order is steady: were an item ahead of the
place taken out, one that does not reach the new item would come before it. -/
theorem KeptInOrder.steadyAt (h : KeptInOrder covers key i frontier)
    (hreaching : Reaching covers reaches key n) (hi : i < n)
    (hstep : sweepStep covers reaches frontier i = .ok r) (hdescending : Descending key r.2) :
    SteadyAt covers reaches key i := by
  obtain ⟨front, back, rfl, hfront, hback⟩ := h.split hreaching hi
  rw [sweepStep_append hreaching.covering hfront hback] at hstep
  by_cases hany : (front ++ back).any (covers · i) = true
  · obtain ⟨x, hx, hcovers⟩ := List.any_eq_true.mp hany
    exact .inl ⟨x, (h.items x).mp hx, hcovers⟩
  · rw [if_neg hany] at hstep
    obtain ⟨u, hroom, hr⟩ := bind_ok.mp hstep
    rw [ensure_ok] at hroom
    cases hr
    have hfull : front.filter (fun x => !covers i x) = front := by
      refine List.filter_sublist.eq_of_length (le_antisymm (List.length_filter_le _ _) ?_)
      by_contra hshort
      rw [List.filter_append, List.length_append] at hroom
      obtain ⟨y, hy⟩ : ∃ y, y ∈ (back.filter fun x => !covers i x).take
          (front.length - (front.filter fun x => !covers i x).length) := by
        refine List.exists_mem_of_length_pos ?_
        rw [List.length_take]
        omega
      have hbefore : key i ≤ key y := by
        refine (List.pairwise_append.mp hdescending).2.2 y ?_ i List.mem_cons_self
        rw [List.filter_append, List.take_append]
        exact List.mem_append_right _ hy
      have hy := List.mem_of_mem_filter (List.mem_of_mem_take hy)
      have hlt := survivors_lt ((h.items y).mp (List.mem_append_right _ hy))
      have hreaches := hreaching.level y (hlt.trans hi) i hi hbefore
      rw [hback y hy] at hreaches
      cases hreaches
    dsimp only at hdescending
    rw [List.filter_append, hfull, List.take_left] at hdescending
    refine .inr fun x hx hreaches => ?_
    rcases List.mem_append.mp ((h.items x).mpr hx) with hx | hx
    · refine ⟨(List.pairwise_append.mp hdescending).2.2 x hx i List.mem_cons_self, ?_⟩
      rw [← hfull] at hx
      simpa using (List.mem_filter.mp hx).2
    · rw [hback x hx] at hreaches
      cases hreaches

-- ---------------------------------------------------------------------------
-- The sweep
-- ---------------------------------------------------------------------------

theorem sweep_succ : sweep covers reaches (n + 1) = sweep covers reaches n >>= fun s =>
    sweepStep covers reaches s.2 n >>= fun r => .ok (s.1 ++ [r.1], r.2) := forUpTo_succ

theorem Steady.take (h : Steady covers reaches key n) (hi : i ≤ n) : Steady covers reaches key i :=
  fun j hj => h j (hj.trans_le hi)

theorem Reaching.take (h : Reaching covers reaches key n) (hi : i ≤ n) :
    Reaching covers reaches key i where
  covering := h.covering
  level x hx y hy := h.level x (hx.trans_le hi) y (hy.trans_le hi)
  upward x hx y hy z hz := h.upward x (hx.trans_le hi) y (hy.trans_le hi) z (hz.trans_le hi)

/-- A steady sweep has the survivors in order. -/
theorem Steady.sweeps (hreaching : Reaching covers reaches key n)
    (hsteady : Steady covers reaches key n) :
    ∃ s, sweep covers reaches n = .ok s ∧ KeptInOrder covers key n s.2 := by
  induction n with
  | zero => exact ⟨([], []), rfl, fun x => Iff.rfl, .nil⟩
  | succ n ih =>
    obtain ⟨s, hs, hkept⟩ := ih (hreaching.take (Nat.le_succ n)) (hsteady.take (Nat.le_succ n))
    have hlt := Nat.lt_succ_self n
    obtain ⟨r, hr, hnext⟩ := hkept.step hreaching hlt (hsteady n hlt)
    exact ⟨(s.1 ++ [r.1], r.2), by rw [sweep_succ, hs, ok_bind, hr, ok_bind], hnext⟩

/-- A sweep succeeds with its frontier in order after every item exactly if it is steady. -/
theorem sweep_descending_iff (hreaching : Reaching covers reaches key n) :
    (∀ i ≤ n, ∃ s, sweep covers reaches i = .ok s ∧ Descending key s.2) ↔
      Steady covers reaches key n := by
  constructor
  · intro hvalid i
    induction i using Nat.strong_induction_on with
    | _ i ih =>
      intro hi
      have hsofar : Steady covers reaches key i := fun j hj => ih j hj (hj.trans hi)
      obtain ⟨s, hs, hkept⟩ := hsofar.sweeps (hreaching.take hi.le)
      obtain ⟨t, ht, hdescending⟩ := hvalid (i + 1) hi
      rw [sweep_succ, hs, ok_bind] at ht
      obtain ⟨r, hr, hrt⟩ := bind_ok.mp ht
      cases hrt
      exact hkept.steadyAt hreaching hi hr hdescending
  · intro hsteady i hi
    obtain ⟨s, hs, hkept⟩ := (hsteady.take hi).sweeps (hreaching.take hi)
    exact ⟨s, hs, hkept.descending⟩

end LibEmbedding.Foundation
