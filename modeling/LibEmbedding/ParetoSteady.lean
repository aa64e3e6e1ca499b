import LibEmbedding.Foundation.SteadyFrontier
import LibEmbedding.ParetoMarks

/-!
# When the frontier of the benchmark stays in order

The loops of the sweep with every access they make: the bisection reads the frontier and the
candidates by index, and so do the search for an entry that covers the candidate and the removal
of the entries that it covers. The frontier is to be in descending order of the throughput.
-/

namespace LibEmbedding

open Foundation Candidate

namespace ParetoSweep

variable (s : ParetoSweep) (i : Nat)

/-- `cands[frontier[k]]` -/
def entry (k : Nat) : Checked Candidate := do
  let idx ← get s.frontier k
  get s.cands idx

/-- The bisection for the place of candidate `i`. -/
def findPlace : Checked Nat :=
  bisectRead (fun mid => do
    let d ← s.entry mid
    let c ← get s.cands i
    return d.reaches c) s.frontier.length 0 s.frontier.length

/-- Whether an entry ahead of the place covers candidate `i`. -/
def isDominated (lo : Nat) : Checked Bool :=
  anyRead (fun k => do
    let d ← s.entry k
    let c ← get s.cands i
    return d.covers c) lo

/-- `remove_if`, then `erase`. -/
def removeDominated : Checked (List Nat) :=
  filterRead (fun idx => do
    let c ← get s.cands i
    let d ← get s.cands idx
    return !c.covers d) s.frontier

/-- The iteration of candidate `i`. -/
def step : Checked ParetoSweep := do
  let lo ← s.findPlace i
  let dominated ← s.isDominated i lo
  if dominated then
    let c ← get s.cands i
    return { s with cands := s.cands.set i (c.mark true) }
  else
    let kept ← s.removeDominated i
    ensure (lo ≤ kept.length) .outOfBounds
    return { s with frontier := kept.take lo ++ i :: kept.drop lo }

/-- Every entry is one of a candidate, and none is faster than one before it. -/
def InThroughputOrder : Prop :=
  ∃ front, s.frontier.mapM (get s.cands) = .ok front ∧
    front.Pairwise fun d c => c.throughput ≤ d.throughput

end ParetoSweep

/-- What the sort may leave for the sweep to go over. -/
def Sweeps (sorter : SortImpl) (cands order : List Candidate) : Prop :=
  1 < cands.length ∧ sorter.sort goesBefore (fresh cands) = .ok order ∧ order.Perm (fresh cands)

/-- No access or insertion of the sweep is out of bounds, and the frontier is in order after every
iteration. -/
def FrontierStaysValid (sorter : SortImpl) (cands : List Candidate) : Prop :=
  ∀ order, Sweeps sorter cands order → ∀ i ≤ order.length,
    ∃ s, forUpTo i ParetoSweep.step ⟨order, []⟩ = .ok s ∧ s.InThroughputOrder

def throughputAt (order : List Candidate) (i : Nat) : ℚ :=
  (order[i]?.map Candidate.throughput).getD 0

/-- Each candidate is covered by an entry that is left, or those that reach it are as fast and not
covered by it. -/
def SteadyOrder (order : List Candidate) : Prop :=
  Steady (coversAt order) (reachesAt order) (throughputAt order) order.length

variable {cands order : List Candidate}

-- ---------------------------------------------------------------------------
-- The accesses
-- ---------------------------------------------------------------------------

/-- While the entries are those of candidates, an iteration is that of `sweepCandidate`. -/
theorem ParetoSweep.step_eq {s : ParetoSweep} {i : Nat} (hi : i < s.cands.length)
    (hfrontier : ∀ x ∈ s.frontier, x < s.cands.length) : s.step i = sweepCandidate s i := by
  obtain ⟨c, hc⟩ : ∃ c, get s.cands i = .ok c := ⟨_, get_ok.mpr (List.getElem?_eq_getElem hi)⟩
  let item : Nat → Candidate := fun x => s.cands.getD x c
  have hitem : ∀ x ∈ s.frontier, get s.cands x = .ok (item x) := fun x hx =>
    get_getD (hfrontier x hx) c
  have hfront : s.frontier.mapM (get s.cands) = .ok (s.frontier.map item) := mapM_eq hitem
  have hentry : ∀ k x, (s.frontier.map item)[k]? = some x → s.entry k = .ok x := by
    intro k d hd
    obtain ⟨x, hx, rfl⟩ := Option.map_eq_some_iff.mp ((List.getElem?_map ..).symm.trans hd)
    rw [entry, get_ok.mpr hx, ok_bind, hitem x (List.mem_of_getElem? hx)]
  have hplace : s.findPlace i = .ok (partitionPoint (·.reaches c) (s.frontier.map item)) := by
    unfold findPlace partitionPoint
    rw [List.length_map]
    refine bisectRead_eq (fun mid hmid => ?_) (Nat.sub_le _ _)
    have hd := List.getElem?_eq_getElem ((List.length_map item).symm ▸ hmid)
    rw [hentry mid _ hd, ok_bind, hc, ok_bind, hd]
    rfl
  have hdominated : ∀ lo ≤ s.frontier.length, s.isDominated i lo =
      .ok (((s.frontier.map item).take lo).any (·.covers c)) := by
    intro lo hlo
    refine anyRead_eq (fun k d hd => ?_) (by rwa [List.length_map])
    rw [hentry k d hd, ok_bind, hc, ok_bind]
    rfl
  have hkept : s.removeDominated i = .ok (s.frontier.filter fun x => !c.covers (item x)) := by
    refine filterRead_eq fun x hx => ?_
    rw [hc, ok_bind, hitem x hx, ok_bind]
    rfl
  have hlo := partitionPoint_le (·.reaches c) (s.frontier.map item)
  rw [List.length_map] at hlo
  have hzip : ((s.frontier.zip (s.frontier.map item)).filter fun e => !c.covers e.2).map Prod.fst =
      s.frontier.filter fun x => !c.covers (item x) :=
    zip_filter_map (p := fun d => !c.covers d) s.frontier
  rw [step, hplace, ok_bind, hdominated _ hlo, ok_bind, hc, ok_bind, hkept, ok_bind, sweepCandidate,
    hc, ok_bind, hfront, ok_bind]
  dsimp only
  rw [hzip]

/-- A run over an order is the sweep of its candidates. -/
theorem steps_eq (hunmarked : markWith order [] = order) {n : Nat} (hn : n ≤ order.length) :
    forUpTo n ParetoSweep.step ⟨order, []⟩ =
      (sweep (coversAt order) (reachesAt order) n).map fun s => ⟨markWith order s.1, s.2⟩ := by
  induction n with
  | zero =>
    change _ = Except.ok (⟨markWith order [], []⟩ : ParetoSweep)
    rw [hunmarked]
    rfl
  | succ n ih =>
    have hloop := (sweepCandidates_eq order (Nat.le_of_succ_le hn)).1
    rw [← (sweepCandidates_eq order hn).1, forUpTo_succ, forUpTo_succ, hloop,
      ih (Nat.le_of_succ_le hn)]
    cases hs : sweep (coversAt order) (reachesAt order) n with
    | error fault => rfl
    | ok s =>
      have hbound := ((sweepCandidates_eq order (Nat.le_of_succ_le hn)).2 s hs).2
      refine ParetoSweep.step_eq ?_ fun x hx => ?_
      · rw [length_markWith]
        exact hn
      · rw [length_markWith]
        exact (hbound x hx).trans hn

-- ---------------------------------------------------------------------------
-- The order
-- ---------------------------------------------------------------------------

theorem throughputAt_of_get (hc : order[i]? = some c) : throughputAt order i = c.throughput := by
  rw [throughputAt, hc]
  rfl

theorem reachesAt_iff (hx : x < order.length) (hi : i < order.length) :
    reachesAt order x i ↔ throughputAt order i - 1 ≤ throughputAt order x := by
  have hd := List.getElem?_eq_getElem hx
  have hc := List.getElem?_eq_getElem hi
  rw [throughputAt_of_get hd, throughputAt_of_get hc, reachesAt, hd, hc]
  exact decide_eq_true_iff

theorem reaching_order (order : List Candidate) :
    Reaching (coversAt order) (reachesAt order) (throughputAt order) order.length where
  covering := reachesAt_of_coversAt order
  level x hx i hi hle := by
    rw [reachesAt_iff hx hi]
    linarith
  upward x hx y hy i hi hle hreaches := by
    rw [reachesAt_iff hy hi] at hreaches
    rw [reachesAt_iff hx hi]
    exact hreaches.trans hle

/-- The order of the frontier is that of the throughputs at its entries. -/
theorem inThroughputOrder_iff (marks : List Bool) {frontier : List Nat}
    (hfrontier : ∀ x ∈ frontier, x < order.length) :
    (⟨markWith order marks, frontier⟩ : ParetoSweep).InThroughputOrder ↔
      Descending (throughputAt order) frontier := by
  let item : Nat → Candidate := fun x =>
    (markWith order marks).getD x ⟨[], [], 0, 0, 0, 0, 0, 0, false⟩
  have hread : frontier.mapM (get (markWith order marks)) = .ok (frontier.map item) := by
    refine mapM_eq fun x hx => get_getD ?_ _
    rw [length_markWith]
    exact hfrontier x hx
  have hitem : ∀ x ∈ frontier, (item x).throughput = throughputAt order x := by
    intro x hx
    obtain ⟨d, hd⟩ : ∃ d, order[x]? = some d := ⟨_, List.getElem?_eq_getElem (hfrontier x hx)⟩
    have hmarked : item x = d.mark (marks.getD x false) := by
      change (markWith order marks).getD x _ = _
      rw [List.getD_eq_getElem?_getD, getElem?_markWith, hd]
      rfl
    rw [hmarked, throughputAt_of_get hd]
    rfl
  have hsame : (frontier.map item).Pairwise (fun d c => c.throughput ≤ d.throughput) ↔
      Descending (throughputAt order) frontier := by
    rw [List.pairwise_map]
    refine List.Pairwise.iff_of_mem fun hx hy => ?_
    rw [hitem _ hx, hitem _ hy]
  rw [← hsame]
  constructor
  · rintro ⟨front, hfront, hordered⟩
    cases hread.symm.trans hfront
    exact hordered
  · exact fun hordered => ⟨_, hread, hordered⟩

/-- The frontier of a run stays valid exactly if the order is steady. -/
theorem steps_valid_iff (hunmarked : markWith order [] = order) :
    (∀ i ≤ order.length, ∃ s, forUpTo i ParetoSweep.step ⟨order, []⟩ = .ok s ∧
      s.InThroughputOrder) ↔ SteadyOrder order := by
  rw [SteadyOrder, ← sweep_descending_iff (reaching_order order)]
  refine forall_congr' fun i => forall_congr' fun hi => ?_
  rw [steps_eq hunmarked hi]
  cases hs : sweep (coversAt order) (reachesAt order) i with
  | error fault =>
    constructor
    · rintro ⟨_, ⟨⟩, -⟩
    · rintro ⟨_, ⟨⟩, -⟩
  | ok s =>
    have hbound := ((sweepCandidates_eq order hi).2 s hs).2
    have hiff := inThroughputOrder_iff s.1 fun x hx => (hbound x hx).trans_le hi
    constructor
    · rintro ⟨_, ⟨⟩, hordered⟩
      exact ⟨s, rfl, hiff.mp hordered⟩
    · rintro ⟨_, ⟨⟩, hdescending⟩
      exact ⟨_, rfl, hiff.mpr hdescending⟩

/-- Two models of the same quality and size; the second is faster by less than the tolerance. -/
def nearTie : List Candidate :=
  [⟨[], [], 9 / 10, 100, 100, 0, 1, 384, false⟩, ⟨[], [], 9 / 10, 201 / 2, 100, 0, 1, 384, false⟩]

end LibEmbedding
