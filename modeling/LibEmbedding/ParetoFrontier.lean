import LibEmbedding.Foundation.Frontier
import LibEmbedding.Foundation.Sorting
import LibEmbedding.Types

/-!
# The Pareto frontier of the benchmark

`compute_pareto` of `embedding_benchmark_impl.hpp` sorts the candidates with tolerances and
sweeps over them with a frontier of indices. The numbers of a candidate are those its floats
stand for, and sums and differences of them are exact.
-/

namespace LibEmbedding

open Foundation

structure Candidate where
  path : Bytes
  name : Bytes
  quality : ℚ
  throughput : ℚ
  fileMb : ℚ
  score : ℚ
  sessions : Int
  dim : Int
  dominated : Bool
  deriving DecidableEq, Repr

namespace Candidate

/-- The comparison of the sort. -/
def goesBefore (a b : Candidate) : Bool :=
  if 1 / 100 < |a.quality - b.quality| then decide (b.quality < a.quality)
  else if 1 < |a.throughput - b.throughput| then decide (b.throughput < a.throughput)
  else decide (a.fileMb < b.fileMb)

def reaches (d c : Candidate) : Bool := decide (c.throughput - 1 ≤ d.throughput)

def betterOrEq (d c : Candidate) : Bool := d.reaches c && decide (d.fileMb ≤ c.fileMb + 1 / 2)

def strictlyBetter (d c : Candidate) : Bool :=
  decide (c.quality + 1 / 100 < d.quality) || decide (c.throughput + 1 < d.throughput) ||
    decide (d.fileMb < c.fileMb - 1 / 2)

/-- What the sweep asks of an item of the frontier, and of the new one: the quality is not worse
by more than the tolerance if `d` comes first in the order. -/
def covers (d c : Candidate) : Bool := d.betterOrEq c && d.strictlyBetter c

/-- The pairwise definition. -/
def Dominates (d c : Candidate) : Prop :=
  c.quality - 1 / 100 ≤ d.quality ∧ c.throughput - 1 ≤ d.throughput ∧
    d.fileMb ≤ c.fileMb + 1 / 2 ∧ (c.quality + 1 / 100 < d.quality ∨
      c.throughput + 1 < d.throughput ∨ d.fileMb < c.fileMb - 1 / 2)

instance (d c : Candidate) : Decidable (Dominates d c) := inferInstanceAs (Decidable (_ ∧ _))

def mark (c : Candidate) (dominated : Bool) : Candidate := { c with dominated }

end Candidate

/-- The locals of `compute_pareto`. -/
structure ParetoSweep where
  cands : List Candidate
  frontier : List Nat
  deriving DecidableEq, Repr

/-- `insert` at a place past the end is undefined. -/
def sweepCandidate (s : ParetoSweep) (i : Nat) : Checked ParetoSweep := do
  let c ← get s.cands i
  let front ← s.frontier.mapM (get s.cands)
  let lo := partitionPoint (·.reaches c) front
  if (front.take lo).any (·.covers c) then return { s with cands := s.cands.set i (c.mark true) }
  else
    let kept := ((s.frontier.zip front).filter fun e => !c.covers e.2).map Prod.fst
    ensure (lo ≤ kept.length) .outOfBounds
    return { s with frontier := kept.take lo ++ i :: kept.drop lo }

def computePareto (sorter : SortImpl) (cands : List Candidate) : Checked (List Candidate) := do
  let cands := cands.map (·.mark false)
  if cands.length ≤ 1 then return cands
  else
    let order ← sorter.sort Candidate.goesBefore cands
    let s ← forUpTo order.length sweepCandidate ⟨order, []⟩
    return s.cands

/-- The check of every pair. -/
def checkPairs (cands : List Candidate) : List Candidate :=
  cands.map fun c => c.mark (decide (∃ d ∈ cands, d.Dominates c))

/-- Every conforming sort leads to the candidates with the marks of the pairwise check. -/
def MarksDominated (cands : List Candidate) : Prop :=
  ∀ sorter, ∃ out, computePareto sorter cands = .ok out ∧ out.Perm (checkPairs cands)

-- ---------------------------------------------------------------------------
-- Two candidates in order
-- ---------------------------------------------------------------------------

namespace Candidate

variable {a b c d : Candidate}

theorem covers_iff : d.covers c = true ↔ c.throughput - 1 ≤ d.throughput ∧
    d.fileMb ≤ c.fileMb + 1 / 2 ∧ (c.quality + 1 / 100 < d.quality ∨
      c.throughput + 1 < d.throughput ∨ d.fileMb < c.fileMb - 1 / 2) := by
  simp only [covers, betterOrEq, reaches, strictlyBetter, Bool.and_eq_true, Bool.or_eq_true,
    decide_eq_true_eq, and_assoc, or_assoc]

theorem reaches_of_covers (h : d.covers c) : d.reaches c :=
  decide_eq_true (covers_iff.mp h).1

/-- The order puts neither the better quality last nor, among near ones, the better
throughput, nor then the smaller file. -/
theorem inOrder_iff : InOrder goesBefore a b ↔
    b.quality ≤ a.quality + 1 / 100 ∧ (a.quality ≤ b.quality + 1 / 100 →
      b.throughput ≤ a.throughput + 1 ∧ (a.throughput ≤ b.throughput + 1 → a.fileMb ≤ b.fileMb)) := by
  unfold InOrder goesBefore
  by_cases hquality : 1 / 100 < |b.quality - a.quality|
  · rw [if_pos hquality, decide_eq_false_iff_not, not_lt]
    rw [lt_abs] at hquality
    constructor
    · intro hle
      exact ⟨by linarith, fun hnear => by rcases hquality with h | h <;> linarith⟩
    · rintro ⟨hle, -⟩
      rcases hquality with h | h <;> linarith
  · rw [if_neg hquality]
    rw [not_lt, abs_le] at hquality
    by_cases hthroughput : 1 < |b.throughput - a.throughput|
    · rw [if_pos hthroughput, decide_eq_false_iff_not, not_lt]
      rw [lt_abs] at hthroughput
      constructor
      · intro hle
        refine ⟨by linarith, fun _ => ⟨by linarith, fun hnear => ?_⟩⟩
        rcases hthroughput with h | h <;> linarith
      · rintro ⟨-, hrest⟩
        have hle := (hrest (by linarith)).1
        rcases hthroughput with h | h <;> linarith
    · rw [if_neg hthroughput, decide_eq_false_iff_not, not_lt]
      rw [not_lt, abs_le] at hthroughput
      constructor
      · exact fun hle => ⟨by linarith, fun _ => ⟨by linarith, fun _ => hle⟩⟩
      · rintro ⟨-, hrest⟩
        exact (hrest (by linarith)).2 (by linarith)

/-- For the first of two candidates in order, covering is dominating. -/
theorem covers_iff_dominates (h : InOrder goesBefore a b) : a.covers b ↔ a.Dominates b := by
  obtain ⟨hquality, -⟩ := inOrder_iff.mp h
  rw [covers_iff, Dominates]
  constructor
  · exact fun hcovers => ⟨by linarith, hcovers⟩
  · exact fun hdominates => hdominates.2

/-- The second of two candidates in order dominates nothing before it. -/
theorem not_dominates (h : InOrder goesBefore a b) : ¬b.Dominates a := by
  obtain ⟨hquality, hrest⟩ := inOrder_iff.mp h
  rintro ⟨hnear, hthroughput, hfile, hbetter⟩
  obtain ⟨hslower, hlarger⟩ := hrest (by linarith)
  rcases hbetter with hbetter | hbetter | hbetter
  · linarith
  · linarith
  · have hle := hlarger (by linarith)
    linarith

theorem not_dominates_self (c : Candidate) : ¬c.Dominates c := by
  rintro ⟨-, -, -, hbetter⟩
  rcases hbetter with hbetter | hbetter | hbetter <;> linarith

end Candidate

-- ---------------------------------------------------------------------------
-- The sweep over an order
-- ---------------------------------------------------------------------------

/-- Whether candidate `k` of an order covers candidate `i`. -/
def coversAt (order : List Candidate) (k i : Nat) : Bool :=
  match order[k]?, order[i]? with
  | some d, some c => d.covers c
  | _, _ => false

def reachesAt (order : List Candidate) (k i : Nat) : Bool :=
  match order[k]?, order[i]? with
  | some d, some c => d.reaches c
  | _, _ => false

theorem reachesAt_of_coversAt (order : List Candidate) (k i : Nat) (h : coversAt order k i) :
    reachesAt order k i := by
  unfold coversAt at h
  unfold reachesAt
  split at h
  · exact Candidate.reaches_of_covers h
  · cases h

/-- An order with the marks of its first candidates. -/
def markWith (order : List Candidate) (marks : List Bool) : List Candidate :=
  order.zipIdx.map fun e => e.1.mark (marks.getD e.2 false)

theorem getElem?_markWith (order : List Candidate) (marks : List Bool) (i : Nat) :
    (markWith order marks)[i]? = order[i]?.map (·.mark (marks.getD i false)) := by
  rw [markWith, List.getElem?_map, List.getElem?_zipIdx, Option.map_map]
  cases order[i]? with
  | none => rfl
  | some c => simp

theorem length_markWith (order : List Candidate) (marks : List Bool) :
    (markWith order marks).length = order.length := by
  rw [markWith, List.length_map, List.length_zipIdx]

/-- A mark that is not set stays at its value. -/
theorem markWith_append_false (order : List Candidate) (marks : List Bool) :
    markWith order (marks ++ [false]) = markWith order marks := by
  refine List.ext_getElem? fun i => ?_
  rw [getElem?_markWith, getElem?_markWith]
  have hsame : (marks ++ [false]).getD i false = marks.getD i false := by
    rcases Nat.lt_trichotomy i marks.length with hlt | rfl | hgt
    · simp [List.getElem?_append_left hlt]
    · simp
    · simp [List.getElem?_append_right hgt.le, List.getElem?_eq_none hgt.le,
        show i - marks.length ≠ 0 by omega]
  rw [hsame]

theorem markWith_append_true {order : List Candidate} {marks : List Bool} {c : Candidate}
    (hget : order[marks.length]? = some c) :
    markWith order (marks ++ [true]) =
      (markWith order marks).set marks.length ((c.mark false).mark true) := by
  refine List.ext_getElem? fun i => ?_
  rw [getElem?_markWith, List.getElem?_set, length_markWith]
  have hlt := (List.getElem?_eq_some_iff.mp hget).1
  by_cases hi : marks.length = i
  · subst hi
    rw [if_pos rfl, if_pos hlt, hget]
    simp [Candidate.mark]
  · rw [if_neg hi, getElem?_markWith]
    have hsame : (marks ++ [true]).getD i false = marks.getD i false := by
      rcases Nat.lt_or_gt_of_ne hi with hgt | hlt
      · simp [List.getElem?_append_right hgt.le, List.getElem?_eq_none hgt.le,
          show i - marks.length ≠ 0 by omega]
      · simp [List.getElem?_append_left hlt]
    rw [hsame]

theorem zip_filter_map {f : α → β} {p : β → Bool} (l : List α) :
    ((l.zip (l.map f)).filter fun e => p e.2).map Prod.fst = l.filter fun x => p (f x) := by
  induction l with
  | nil => rfl
  | cons x l ih =>
    rw [List.map_cons, List.zip_cons_cons, List.filter_cons, List.filter_cons]
    split
    · rw [List.map_cons, ih]
    · exact ih

/-- An iteration is a step of the sweep over the order. -/
theorem sweepCandidate_eq {order : List Candidate} {marks : List Bool} {frontier : List Nat}
    (hi : marks.length < order.length) (hfrontier : ∀ x ∈ frontier, x < order.length) :
    sweepCandidate ⟨markWith order marks, frontier⟩ marks.length =
      (sweepStep (coversAt order) (reachesAt order) frontier marks.length).map fun r =>
        ⟨markWith order (marks ++ [r.1]), r.2⟩ := by
  obtain ⟨c, hc⟩ : ∃ c, order[marks.length]? = some c := ⟨_, List.getElem?_eq_getElem hi⟩
  have hunmarked : marks.getD marks.length false = false := by simp
  have hget : get (markWith order marks) marks.length = .ok (c.mark false) := by
    rw [get_ok, getElem?_markWith, hc, hunmarked]
    rfl
  let item : Nat → Candidate := fun x => ((markWith order marks)[x]?).getD c
  have hitem : ∀ x ∈ frontier, ∃ d m, order[x]? = some d ∧ item x = d.mark m := by
    intro x hx
    have hd := List.getElem?_eq_getElem (hfrontier x hx)
    refine ⟨_, marks.getD x false, hd, ?_⟩
    change ((markWith order marks)[x]?).getD c = _
    rw [getElem?_markWith, hd]
    rfl
  have hfront : frontier.mapM (get (markWith order marks)) = .ok (frontier.map item) := by
    refine mapM_eq fun x hx => get_ok.mpr ?_
    change (markWith order marks)[x]? = some (((markWith order marks)[x]?).getD c)
    rw [getElem?_markWith, List.getElem?_eq_getElem (hfrontier x hx)]
    rfl
  have hreaches : ∀ x ∈ frontier, (item x).reaches (c.mark false) =
      reachesAt order x marks.length := by
    intro x hx
    obtain ⟨d, m, hd, hm⟩ := hitem x hx
    rw [reachesAt, hd, hc, hm]
    rfl
  have hcovers : ∀ x ∈ frontier, (item x).covers (c.mark false) =
      coversAt order x marks.length := by
    intro x hx
    obtain ⟨d, m, hd, hm⟩ := hitem x hx
    rw [coversAt, hd, hc, hm]
    rfl
  have hcovered : ∀ x ∈ frontier, (c.mark false).covers (item x) =
      coversAt order marks.length x := by
    intro x hx
    obtain ⟨d, m, hd, hm⟩ := hitem x hx
    rw [coversAt, hd, hc, hm]
    rfl
  have hlo : partitionPoint (·.reaches (c.mark false)) (frontier.map item) =
      partitionPoint (reachesAt order · marks.length) frontier := by
    rw [partitionPoint_map]
    exact partitionPoint_congr hreaches
  have hany : ∀ lo, ((frontier.map item).take lo).any (·.covers (c.mark false)) =
      (frontier.take lo).any (coversAt order · marks.length) := by
    intro lo
    rw [← List.map_take, List.any_map, Bool.eq_iff_iff, List.any_eq_true, List.any_eq_true]
    refine exists_congr fun x => and_congr_right fun hx => ?_
    rw [← hcovers x (List.mem_of_mem_take hx)]
    rfl
  have hkept : (((frontier.zip (frontier.map item)).filter fun e =>
      !(c.mark false).covers e.2).map Prod.fst) =
      frontier.filter fun x => !coversAt order marks.length x := by
    rw [zip_filter_map (p := fun d => !(c.mark false).covers d)]
    exact List.filter_congr fun x hx => by rw [hcovered x hx]
  rw [sweepCandidate, sweepStep]
  dsimp only
  rw [hget, ok_bind, hfront, ok_bind, hlo, hany, hkept]
  split
  · change _ = Except.ok (⟨markWith order (marks ++ [true]), frontier⟩ : ParetoSweep)
    rw [markWith_append_true hc]
    rfl
  · change _ = Except.map _ (ensure _ _ >>= _)
    cases ensure (partitionPoint (reachesAt order · marks.length) frontier ≤
        (frontier.filter fun x => !coversAt order marks.length x).length) .outOfBounds with
    | error fault => rfl
    | ok u =>
      change Except.ok _ = Except.ok (⟨markWith order (marks ++ [false]), _⟩ : ParetoSweep)
      rw [markWith_append_false]

/-- The loop is the sweep over the order. -/
theorem sweepCandidates_eq (order : List Candidate) {n : Nat} (hn : n ≤ order.length) :
    (forUpTo n sweepCandidate ⟨markWith order [], []⟩ =
        (sweep (coversAt order) (reachesAt order) n).map fun s => ⟨markWith order s.1, s.2⟩) ∧
      ∀ s, sweep (coversAt order) (reachesAt order) n = .ok s →
        s.1.length = n ∧ ∀ x ∈ s.2, x < n := by
  induction n with
  | zero =>
    refine ⟨rfl, ?_⟩
    rintro s ⟨⟩
    exact ⟨rfl, nofun⟩
  | succ n ih =>
    obtain ⟨hloop, hsweep⟩ := ih (Nat.le_of_succ_le hn)
    have hnext : sweep (coversAt order) (reachesAt order) (n + 1) =
        sweep (coversAt order) (reachesAt order) n >>= fun s =>
          sweepStep (coversAt order) (reachesAt order) s.2 n >>= fun r =>
            .ok (s.1 ++ [r.1], r.2) := forUpTo_succ
    rw [forUpTo_succ, hloop, hnext]
    cases hs : sweep (coversAt order) (reachesAt order) n with
    | error fault => exact ⟨rfl, nofun⟩
    | ok s =>
      obtain ⟨hlength, hbound⟩ := hsweep s hs
      have hstep := sweepCandidate_eq (hlength ▸ hn : s.1.length < order.length) fun x hx =>
        (hbound x hx).trans (Nat.lt_of_succ_le hn)
      rw [hlength] at hstep
      change sweepCandidate ⟨markWith order s.1, s.2⟩ n = _ ∧ _
      rw [hstep, ok_bind]
      cases hr : sweepStep (coversAt order) (reachesAt order) s.2 n with
      | error fault => exact ⟨rfl, nofun⟩
      | ok r =>
        refine ⟨rfl, ?_⟩
        rintro _ ⟨⟩
        refine ⟨by rw [List.length_append, hlength]; rfl, fun x hx => ?_⟩
        exact sweepStep_lt hbound hr x hx

end LibEmbedding
