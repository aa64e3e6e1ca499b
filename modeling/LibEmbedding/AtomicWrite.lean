import LibEmbedding.AutotuneCache
import LibEmbedding.Foundation.Inodes
import LibEmbedding.Foundation.Runs

/-!
# Atomic file writes

`write_file_atomic`, one system call after another: every call may be refused, a stream may
fail at any byte, the process may stop after any call, and other writers of the same path take
their steps in between.
-/

namespace LibEmbedding

open Foundation Function

/-- How far a writer is: before the temporary file is opened, in the stream with the file it is
on and the bytes that are out, behind a failed stream, before the first `rename`, before
`remove(path)`, before the second `rename`, before the temporary file is removed, or done. -/
inductive WriteStage where
  | idle
  | writing (file written : Nat)
  | failing
  | renaming
  | removing
  | retrying
  | cleaning
  | returned (ok : Bool)
  deriving DecidableEq

/-- Between the opening of its temporary file and its return. -/
def WriteStage.active : WriteStage → Bool
  | .idle => false
  | .returned _ => false
  | _ => true

/-- A system call, and whether it succeeds. `wrote` is the part of the content that one `write`
takes, `broke` the stream that goes bad. -/
inductive WriteAct where
  | opened (ok : Bool)
  | wrote (bytes : Nat)
  | broke
  | closed
  | dropped (ok : Bool)
  | renamed (ok : Bool)
  | removed (ok : Bool)
  | retried (ok : Bool)
  | cleaned (ok : Bool)
  deriving DecidableEq

/-- The writers of one path and the files. -/
structure Writers (ι : Type) where
  disk : Inodes Bytes UInt8
  stage : ι → WriteStage

def tmpOf (path : Bytes) : Bytes := path ++ ascii ".tmp"

theorem tmpOf_ne (path : Bytes) : tmpOf path ≠ path := by
  intro h
  have hnil : ascii ".tmp" = [] := List.self_eq_append_right.mp h.symm
  revert hnil
  decide

namespace Writers

variable {ι : Type} [DecidableEq ι]

/-- Writer `i` goes on to `stage`. -/
def goOn (s : Writers ι) (i : ι) (disk : Inodes Bytes UInt8) (stage : WriteStage) : Writers ι :=
  ⟨disk, update s.stage i stage⟩

/-- One step of `write_file_atomic(path, contents i)`. -/
inductive Step (path : Bytes) (contents : ι → Bytes) :
    Writers ι → ι × WriteAct → Writers ι → Prop where
  | opened {s : Writers ι} {i} (h : s.stage i = .idle) :
    Step path contents s (i, .opened true) (s.goOn i (s.disk.openTrunc (tmpOf path)).1
      (.writing (s.disk.openTrunc (tmpOf path)).2 0))
  | notOpened {s : Writers ι} {i} (h : s.stage i = .idle) :
    Step path contents s (i, .opened false) (s.goOn i s.disk (.returned false))
  | wrote {s : Writers ι} {i k w n} (h : s.stage i = .writing k w)
    (hn : w + n ≤ (contents i).length) :
    Step path contents s (i, .wrote n) (s.goOn i
      (s.disk.setData k (Inodes.overwrite 0 (s.disk.data k) w (((contents i).drop w).take n)))
        (.writing k (w + n)))
  | broke {s : Writers ι} {i k w} (h : s.stage i = .writing k w) :
    Step path contents s (i, .broke) (s.goOn i s.disk .failing)
  | closed {s : Writers ι} {i k w} (h : s.stage i = .writing k w)
    (hall : w = (contents i).length) :
    Step path contents s (i, .closed) (s.goOn i s.disk .renaming)
  | dropped {s : Writers ι} {i} (h : s.stage i = .failing) :
    Step path contents s (i, .dropped true)
      (s.goOn i (s.disk.unlink (tmpOf path)) (.returned false))
  | notDropped {s : Writers ι} {i} (h : s.stage i = .failing) :
    Step path contents s (i, .dropped false) (s.goOn i s.disk (.returned false))
  | renamed {s : Writers ι} {i} (h : s.stage i = .renaming)
    (htmp : (s.disk.dir (tmpOf path)).isSome = true) :
    Step path contents s (i, .renamed true)
      (s.goOn i (s.disk.rename (tmpOf path) path) (.returned true))
  | notRenamed {s : Writers ι} {i} (h : s.stage i = .renaming) :
    Step path contents s (i, .renamed false) (s.goOn i s.disk .removing)
  | removed {s : Writers ι} {i} (h : s.stage i = .removing) :
    Step path contents s (i, .removed true) (s.goOn i (s.disk.unlink path) .retrying)
  | notRemoved {s : Writers ι} {i} (h : s.stage i = .removing) :
    Step path contents s (i, .removed false) (s.goOn i s.disk .retrying)
  | retried {s : Writers ι} {i} (h : s.stage i = .retrying)
    (htmp : (s.disk.dir (tmpOf path)).isSome = true) :
    Step path contents s (i, .retried true)
      (s.goOn i (s.disk.rename (tmpOf path) path) (.returned true))
  | notRetried {s : Writers ι} {i} (h : s.stage i = .retrying) :
    Step path contents s (i, .retried false) (s.goOn i s.disk .cleaning)
  | cleaned {s : Writers ι} {i} (h : s.stage i = .cleaning) :
    Step path contents s (i, .cleaned true)
      (s.goOn i (s.disk.unlink (tmpOf path)) (.returned false))
  | notCleaned {s : Writers ι} {i} (h : s.stage i = .cleaning) :
    Step path contents s (i, .cleaned false) (s.goOn i s.disk (.returned false))

variable {path : Bytes} {contents : ι → Bytes}

/-- Before any of the calls. A temporary file may have been left by an earlier process. -/
def start (ι : Type) (disk : Inodes Bytes UInt8) : Writers ι := ⟨disk, fun _ => .idle⟩

-- ---------------------------------------------------------------------------
-- What a writer holds
-- ---------------------------------------------------------------------------

/-- What stands in the temporary file while its writer is on its way. -/
def Holds (disk : Inodes Bytes UInt8) (tmp content : Bytes) : WriteStage → Prop
  | .writing k w => disk.dir tmp = some k ∧ disk.data k = content.take w ∧ w ≤ content.length
  | .renaming => disk.content tmp = some content
  | .removing => disk.content tmp = some content
  | .retrying => disk.content tmp = some content
  | _ => True

/-- Every active writer holds the temporary file, and there is one at most. -/
structure Apart (path : Bytes) (contents : ι → Bytes) (s : Writers ι) : Prop where
  holds : ∀ i, Holds s.disk (tmpOf path) (contents i) (s.stage i)
  alone : ∀ i j, (s.stage i).active = true → (s.stage j).active = true → i = j

/-- Nobody opens the temporary file while another is on its way. -/
def OpensAlone (s : Writers ι) (a : ι × WriteAct) : Prop :=
  a.2 = .opened true → ∀ j, (s.stage j).active = false

omit [DecidableEq ι] in
theorem apart_start (disk : Inodes Bytes UInt8) : Apart path contents (start ι disk) := by
  constructor
  case holds => exact fun _ => trivial
  case alone =>
    intro i j hi
    cases hi

theorem holds_inactive {disk : Inodes Bytes UInt8} {stage : WriteStage}
    (h : stage.active = false) : Holds disk tmp content stage := by
  cases stage with
  | idle => trivial
  | returned => trivial
  | _ => cases h

/-- A step of the one writer that is on its way leaves the others where they are. -/
theorem Apart.goOn {s : Writers ι} {i : ι} {disk : Inodes Bytes UInt8} {stage : WriteStage}
    (hothers : ∀ j, j ≠ i → (s.stage j).active = false)
    (hstage : Holds disk (tmpOf path) (contents i) stage) :
    Apart path contents (s.goOn i disk stage) := by
  have hother (j : ι) (hj : j ≠ i) : ((s.goOn i disk stage).stage j).active = false := by
    rw [Writers.goOn]
    dsimp only
    rw [update_of_ne hj]
    exact hothers j hj
  constructor
  case holds =>
    intro j
    by_cases hj : j = i
    · subst hj
      rw [Writers.goOn]
      dsimp only
      rw [update_self]
      exact hstage
    · exact holds_inactive (hother j hj)
  case alone =>
    intro j l hj hl
    have hown (j : ι) (hj : ((s.goOn i disk stage).stage j).active = true) : j = i := by
      by_contra hne
      rw [hother j hne] at hj
      cases hj
    rw [hown j hj, hown l hl]

omit [DecidableEq ι] in
theorem Apart.others {s : Writers ι} {i : ι} (h : s.Apart path contents)
    (hi : (s.stage i).active = true) : ∀ j, j ≠ i → (s.stage j).active = false := by
  intro j hj
  refine Bool.eq_false_iff.mpr fun hactive => hj (h.alone j i hactive hi)

/-- A writer that gives up before it starts touches nothing. -/
theorem Apart.leave {s : Writers ι} {i : ι} (h : s.Apart path contents) (ok : Bool) :
    Apart path contents (s.goOn i s.disk (.returned ok)) := by
  have hstage (j : ι) : (s.goOn i s.disk (.returned ok)).stage j = s.stage j ∨
      ((s.goOn i s.disk (.returned ok)).stage j).active = false := by
    by_cases hj : j = i
    · subst hj
      refine .inr ?_
      rw [Writers.goOn]
      dsimp only
      rw [update_self]
      rfl
    · refine .inl ?_
      rw [Writers.goOn]
      exact update_of_ne hj _ _
  constructor
  case holds =>
    intro j
    rcases hstage j with hsame | hdone
    · rw [hsame]
      exact h.holds j
    · exact holds_inactive hdone
  case alone =>
    intro j l hj hl
    rcases hstage j with hsame | hdone
    · rcases hstage l with hsame' | hdone'
      · exact h.alone j l (hsame ▸ hj) (hsame' ▸ hl)
      · rw [hdone'] at hl
        cases hl
    · rw [hdone] at hj
      cases hj

theorem holds_open (disk : Inodes Bytes UInt8) (tmp content : Bytes) :
    Holds (disk.openTrunc tmp).1 tmp content (.writing (disk.openTrunc tmp).2 0) :=
  ⟨(disk.openTrunc_dir tmp).1, (disk.openTrunc_dir tmp).2, Nat.zero_le _⟩

theorem holds_wrote {disk : Inodes Bytes UInt8} (h : Holds disk tmp content (.writing k w))
    (hn : w + n ≤ content.length) :
    Holds (disk.setData k (Inodes.overwrite 0 (disk.data k) w ((content.drop w).take n))) tmp content
      (.writing k (w + n)) := by
  obtain ⟨hdir, hdata, hw⟩ := h
  refine ⟨hdir, ?_, hn⟩
  have hoffset : w = (content.take w).length := (List.length_take_of_le hw).symm
  have hend : Inodes.overwrite 0 (content.take w) w ((content.drop w).take n) =
      content.take w ++ (content.drop w).take n := by
    conv_lhs =>
      arg 3
      rw [hoffset]
    exact Inodes.overwrite_end 0 _ _
  rw [Inodes.setData]
  dsimp only
  rw [update_self, hdata, hend, List.take_add]

/-- One writer at a time keeps to its own temporary file. -/
theorem Apart.step {s t : Writers ι} {a : ι × WriteAct} (h : s.Apart path contents)
    (hopens : s.OpensAlone a) (hstep : Step path contents s a t) : t.Apart path contents := by
  have hothers (i : ι) {stage : WriteStage} (hi : s.stage i = stage)
      (hactive : stage.active = true) : ∀ j, j ≠ i → (s.stage j).active = false :=
    h.others (hi ▸ hactive)
  have hheld (i : ι) {stage : WriteStage} (hi : s.stage i = stage) :
      Holds s.disk (tmpOf path) (contents i) stage := hi ▸ h.holds i
  cases hstep with
  | opened hi => exact .goOn (fun j _ => hopens rfl j) (holds_open _ _ _)
  | notOpened hi => exact h.leave false
  | wrote hi hn => exact .goOn (hothers _ hi rfl) (holds_wrote (hheld _ hi) hn)
  | broke hi => exact .goOn (hothers _ hi rfl) trivial
  | closed hi hall =>
    obtain ⟨hdir, hdata, -⟩ := hheld _ hi
    refine .goOn (hothers _ hi rfl) ?_
    rw [hall, List.take_length] at hdata
    rw [Holds, Inodes.content, hdir, Option.map_some, hdata]
  | dropped hi => exact .goOn (hothers _ hi rfl) trivial
  | notDropped hi => exact .goOn (hothers _ hi rfl) trivial
  | renamed hi htmp => exact .goOn (hothers _ hi rfl) trivial
  | @notRenamed i hi =>
    have htmp : s.disk.content (tmpOf path) = some (contents i) := hheld _ hi
    exact .goOn (hothers _ hi rfl) htmp
  | removed hi =>
    refine .goOn (hothers _ hi rfl) ?_
    exact (Inodes.content_unlink_other _ (tmpOf_ne path)).trans (hheld _ hi)
  | @notRemoved i hi =>
    have htmp : s.disk.content (tmpOf path) = some (contents i) := hheld _ hi
    exact .goOn (hothers _ hi rfl) htmp
  | retried hi htmp => exact .goOn (hothers _ hi rfl) trivial
  | notRetried hi => exact .goOn (hothers _ hi rfl) trivial
  | cleaned hi => exact .goOn (hothers _ hi rfl) trivial
  | notCleaned hi => exact .goOn (hothers _ hi rfl) trivial

-- ---------------------------------------------------------------------------
-- What a step does to the path
-- ---------------------------------------------------------------------------

/-- The path gets the writer's content when it returns `true`, loses its file to `remove`, and
stays as it is in every other step. -/
theorem step_content {s t : Writers ι} {a : ι × WriteAct} (h : s.Apart path contents)
    (hstep : Step path contents s a t) :
    (t.stage a.1 = .returned true ∧ a.2 ≠ .removed true ∧
      t.disk.content path = some (contents a.1)) ∨
    (t.stage a.1 = .retrying ∧ a.2 = .removed true ∧ t.disk.content path = none) ∨
    (t.stage a.1 ≠ .returned true ∧ a.2 ≠ .removed true ∧
      t.disk.content path = s.disk.content path) := by
  have hheld (i : ι) {stage : WriteStage} (hi : s.stage i = stage) :
      Holds s.disk (tmpOf path) (contents i) stage := hi ▸ h.holds i
  have hne := tmpOf_ne path
  have hstage (i : ι) (disk : Inodes Bytes UInt8) (stage : WriteStage) :
      (s.goOn i disk stage).stage i = stage := update_self _ _ _
  cases hstep with
  | opened hi =>
    exact .inr (.inr ⟨by rw [hstage]; nofun, nofun, Inodes.content_openTrunc_other _ hne.symm⟩)
  | notOpened hi => exact .inr (.inr ⟨by rw [hstage]; nofun, nofun, rfl⟩)
  | @wrote i k w n hi hn =>
    obtain ⟨hdir, -, -⟩ := hheld _ hi
    refine .inr (.inr ⟨by rw [hstage]; nofun, nofun, ?_⟩)
    exact Inodes.content_setData_other _ _ fun hshared =>
      hne (s.disk.unshared _ _ k hdir hshared)
  | broke hi => exact .inr (.inr ⟨by rw [hstage]; nofun, nofun, rfl⟩)
  | closed hi hall => exact .inr (.inr ⟨by rw [hstage]; nofun, nofun, rfl⟩)
  | dropped hi =>
    exact .inr (.inr ⟨by rw [hstage]; nofun, nofun, Inodes.content_unlink_other _ hne.symm⟩)
  | notDropped hi => exact .inr (.inr ⟨by rw [hstage]; nofun, nofun, rfl⟩)
  | renamed hi htmp =>
    refine .inl ⟨hstage _ _ _, nofun, ?_⟩
    exact (Inodes.content_rename_self _ hne.symm).trans (hheld _ hi)
  | notRenamed hi => exact .inr (.inr ⟨by rw [hstage]; nofun, nofun, rfl⟩)
  | removed hi => exact .inr (.inl ⟨hstage _ _ _, rfl, Inodes.content_unlink_self _ _⟩)
  | notRemoved hi => exact .inr (.inr ⟨by rw [hstage]; nofun, nofun, rfl⟩)
  | retried hi htmp =>
    refine .inl ⟨hstage _ _ _, nofun, ?_⟩
    exact (Inodes.content_rename_self _ hne.symm).trans (hheld _ hi)
  | notRetried hi => exact .inr (.inr ⟨by rw [hstage]; nofun, nofun, rfl⟩)
  | cleaned hi =>
    exact .inr (.inr ⟨by rw [hstage]; nofun, nofun, Inodes.content_unlink_other _ hne.symm⟩)
  | notCleaned hi => exact .inr (.inr ⟨by rw [hstage]; nofun, nofun, rfl⟩)

theorem step_runs {s t : Writers ι} {a : ι × WriteAct} (hstep : Step path contents s a t)
    (ok : Bool) : s.stage a.1 ≠ .returned ok := by
  intro hdone
  cases hstep with
  | wrote hi hn => cases hi.symm.trans hdone
  | closed hi hall => cases hi.symm.trans hdone
  | renamed hi htmp => cases hi.symm.trans hdone
  | retried hi htmp => cases hi.symm.trans hdone
  | _ =>
    rename_i hi
    cases hi.symm.trans hdone

-- ---------------------------------------------------------------------------
-- Runs
-- ---------------------------------------------------------------------------

/-- The step does not take a file away from the path. -/
def KeepsFile (path : Bytes) (s : Writers ι) (a : ι × WriteAct) : Prop :=
  a.2 = .removed true → s.disk.content path = none

/-- Writers take turns, and none takes a file away from the path. -/
def Careful (path : Bytes) (s : Writers ι) (a : ι × WriteAct) : Prop :=
  s.OpensAlone a ∧ s.KeepsFile path a

/-- The path holds what it held at first, or what some writer wrote, from end to end. -/
def Whole (path : Bytes) (contents : ι → Bytes) (old : Option Bytes) (s : Writers ι) : Prop :=
  s.disk.content path = old ∨ ∃ i, s.disk.content path = some (contents i)

/-- The promise to a single writer. -/
structure Atomic (path new : Bytes) (old : Option Bytes) (s : Writers Unit) : Prop where
  whole : s.disk.content path = old ∨ s.disk.content path = some new
  failed : s.stage () = .returned false → s.disk.content path = old
  done : s.stage () = .returned true → s.disk.content path = some new

/-- The swap takes place in the step that returns `true`. -/
structure Swaps (path new : Bytes) (old : Option Bytes) (s : Writers Unit) : Prop where
  before : s.stage () ≠ .returned true → s.disk.content path = old
  after : s.stage () = .returned true → s.disk.content path = some new

theorem Swaps.atomic {s : Writers Unit} (h : s.Swaps path new old) : s.Atomic path new old := by
  constructor
  case whole =>
    by_cases hdone : s.stage () = .returned true
    · exact .inr (h.after hdone)
    · exact .inl (h.before hdone)
  case failed =>
    intro hfailed
    exact h.before (by rw [hfailed]; nofun)
  case done => exact h.after

/-- A single writer is alone. -/
theorem opensAlone_unit {s t : Writers Unit} {a : Unit × WriteAct} {content : Unit → Bytes}
    (hstep : Step path content s a t) : s.OpensAlone a := by
  intro hopened j
  cases hstep with
  | opened hi =>
    rw [hi]
    rfl
  | _ => cases hopened

theorem swaps_step {s t : Writers Unit} {a : Unit × WriteAct}
    (hapart : s.Apart path fun _ => new) (h : s.Swaps path new old)
    (hstep : Step path (fun _ => new) s a t) : t.Swaps path new old ↔ s.KeepsFile path a := by
  have hold : s.disk.content path = old := h.before (step_runs hstep true)
  rcases step_content hapart hstep with ⟨hdone, hact, hnew⟩ | ⟨hstage, hact, hnone⟩ |
    ⟨hstage, hact, hsame⟩
  · exact iff_of_true ⟨fun hother => absurd hdone hother, fun _ => hnew⟩
      fun hremoved => absurd hremoved hact
  · have hother : t.stage () ≠ .returned true := by
      change t.stage a.1 ≠ _
      rw [hstage]
      nofun
    constructor
    · intro ht _
      rw [hold, ← ht.before hother, hnone]
    · intro hkeeps
      exact ⟨fun _ => by rw [hnone, ← hold, hkeeps hact], fun hdone => absurd hdone hother⟩
  · exact iff_of_true ⟨fun _ => hsame.trans hold, fun hdone => absurd hdone hstage⟩
      fun hremoved => absurd hremoved hact

/-- What the promise says of a state whose predecessor had not swapped yet. -/
theorem swaps_of_atomic {s t : Writers Unit} {a : Unit × WriteAct}
    (hapart : s.Apart path fun _ => new) (h : s.Swaps path new old)
    (hstep : Step path (fun _ => new) s a t) (hatomic : t.Atomic path new old) :
    t.Swaps path new old := by
  have hold : s.disk.content path = old := h.before (step_runs hstep true)
  refine ⟨fun hother => ?_, hatomic.done⟩
  rcases step_content hapart hstep with ⟨hdone, -, -⟩ | ⟨-, -, hnone⟩ | ⟨-, -, hsame⟩
  · exact absurd hdone hother
  · rcases hatomic.whole with heq | hnew
    · exact heq
    · rw [hnone] at hnew
      cases hnew
  · exact hsame.trans hold

theorem apart_unit {disk : Inodes Bytes UInt8}
    (hrun : Run (Step path fun _ => new) (start Unit disk) acts s) :
    s.Apart path fun _ => new :=
  hrun.invariant (apart_start disk) fun _ _ _ h hstep => h.step (opensAlone_unit hstep) hstep

theorem swaps_start (disk : Inodes Bytes UInt8) :
    (start Unit disk).Swaps path new (disk.content path) := ⟨fun _ => rfl, nofun⟩

/-- The promise is kept all along a run exactly when the swap is. -/
theorem always_atomic_iff {disk : Inodes Bytes UInt8} {acts : List (Unit × WriteAct)} :
    Always (Step path fun _ => new) (start Unit disk) acts
        (Atomic path new (disk.content path)) ↔
      Always (Step path fun _ => new) (start Unit disk) acts
        (Swaps path new (disk.content path)) := by
  constructor
  · intro halways done t hpre hrun
    induction hrun with
    | start => exact swaps_start disk
    | @next done t a u hrun hstep ih =>
      have hdone : done <+: acts := (List.prefix_append done [a]).trans hpre
      exact swaps_of_atomic (apart_unit hrun) (ih hdone) hstep
        (halways _ u hpre (.next hrun hstep))
  · intro halways done t hpre hrun
    exact (halways done t hpre hrun).atomic

/-- What a returned write has come to, in the words of the cache. -/
theorem returned_saving {disk : Inodes Bytes UInt8} {acts : List (Unit × WriteAct)}
    (hrun : Run (Step path fun _ => new) (start Unit disk) acts s)
    (hreturned : s.stage () = .returned ok) :
    ∃ saving, (ok = true ↔ saving = Saving.stored) ∧
      s.disk.content path =
        match saving with
        | .stored => some new
        | .kept => disk.content path
        | .lost => none := by
  have hcases : (s.stage () = .returned true → s.disk.content path = some new) ∧
      (s.stage () ≠ .returned true →
        s.disk.content path = disk.content path ∨ s.disk.content path = none) := by
    clear hreturned
    induction hrun with
    | start => exact ⟨nofun, fun _ => .inl rfl⟩
    | @next done t a u hrun hstep ih =>
      have hbefore := ih.2 (step_runs hstep true)
      rcases step_content (apart_unit hrun) hstep with ⟨hdone, -, hnew⟩ | ⟨hstage, -, hnone⟩ |
        ⟨hstage, -, hsame⟩
      · exact ⟨fun _ => hnew, fun hother => absurd hdone hother⟩
      · refine ⟨fun hdone => ?_, fun _ => .inr hnone⟩
        cases hstage.symm.trans hdone
      · exact ⟨fun hdone => absurd hdone hstage, fun _ => hsame ▸ hbefore⟩
  cases ok with
  | true => exact ⟨.stored, iff_of_true rfl rfl, hcases.1 hreturned⟩
  | false =>
    rcases hcases.2 (by rw [hreturned]; nofun) with hkept | hlost
    · exact ⟨.kept, iff_of_false nofun nofun, hkept⟩
    · exact ⟨.lost, iff_of_false nofun nofun, hlost⟩

theorem whole_step {s t : Writers ι} {a : ι × WriteAct} (hapart : s.Apart path contents)
    (h : s.Whole path contents old) (hkeeps : s.KeepsFile path a)
    (hstep : Step path contents s a t) : t.Whole path contents old := by
  rcases step_content hapart hstep with ⟨-, -, hnew⟩ | ⟨-, hact, hnone⟩ | ⟨-, -, hsame⟩
  · exact .inr ⟨a.1, hnew⟩
  · have hsame : t.disk.content path = s.disk.content path := hnone.trans (hkeeps hact).symm
    unfold Whole
    rw [hsame]
    exact h
  · unfold Whole
    rw [hsame]
    exact h

/-- A single write is atomic in exactly the runs in which it takes no file away from its path;
several are where they take turns and none does. -/
theorem atomic_iff_keepsFile (path : Bytes) :
    (∀ disk new acts, Always (Step path fun _ => new) (start Unit disk) acts
        (Atomic path new (disk.content path)) ↔
      EveryStep (Step path fun _ => new) (start Unit disk) acts (KeepsFile path)) ∧
    (∀ (ι : Type) [DecidableEq ι] (contents : ι → Bytes) disk acts,
      EveryStep (Step path contents) (start ι disk) acts (Careful path) →
      Always (Step path contents) (start ι disk) acts
        (Whole path contents (disk.content path))) := by
  constructor
  · intro disk new acts
    rw [always_atomic_iff]
    exact always_iff_everyStep_of_invariant (apart_start disk)
      (fun _ _ _ h hstep => h.step (opensAlone_unit hstep) hstep) (swaps_start disk)
      fun _ _ _ hapart h hstep => swaps_step hapart h hstep
  · intro ι _ contents disk acts hevery
    have hboth : Always (Step path contents) (start ι disk) acts fun s =>
        s.Apart path contents ∧ s.Whole path contents (disk.content path) :=
      always_of_everyStep ⟨apart_start disk, .inl rfl⟩
        (fun _ _ _ h hcareful hstep => ⟨h.1.step hcareful.1 hstep,
          whole_step h.1 h.2 hcareful.2 hstep⟩) hevery
    exact fun done t hpre hrun => (hboth done t hpre hrun).2

/-- A disk with one file. -/
def sampleDisk : Inodes Bytes UInt8 :=
  ((Inodes.empty Bytes UInt8).create (ascii "entry.json")).setData 0 (ascii "old")

/-- A refused `rename`, and the process stops behind the `remove`. -/
def refusedRename : List (Unit × WriteAct) :=
  [((), .opened true), ((), .wrote 3), ((), .closed), ((), .renamed false), ((), .removed true)]

/-- The second writer opens the temporary file that the first one then moves. -/
def sharedTmp : List (Bool × WriteAct) :=
  [(false, .opened true), (false, .wrote 3), (false, .closed), (true, .opened true),
    (false, .renamed true)]

/-- A refused rename costs the old file, and of two writers the one publishes what the other has
only begun. -/
theorem write_not_atomic :
    ¬Always (Step (ascii "entry.json") fun _ => ascii "new") (start Unit sampleDisk) refusedRename
      (Atomic (ascii "entry.json") (ascii "new") (sampleDisk.content (ascii "entry.json"))) ∧
    ¬Always (Step (ascii "entry.json") fun second => if second then ascii "two" else ascii "one")
      (start Bool sampleDisk) sharedTmp
      (Whole (ascii "entry.json") (fun second => if second then ascii "two" else ascii "one")
        (sampleDisk.content (ascii "entry.json"))) := by
  constructor
  · intro halways
    have hrun : ∃ s : Writers Unit, Run (Step (ascii "entry.json") fun _ => ascii "new")
        (start Unit sampleDisk) refusedRename s ∧ s.disk.content (ascii "entry.json") = none := by
      refine ⟨_, Run.cons_iff.mpr ⟨_, .opened rfl, Run.cons_iff.mpr ⟨_, .wrote rfl ?_,
        Run.cons_iff.mpr ⟨_, .closed rfl rfl, Run.cons_iff.mpr ⟨_, .notRenamed rfl,
          Run.cons_iff.mpr ⟨_, .removed rfl, .start⟩⟩⟩⟩⟩, ?_⟩
      · decide
      · exact Inodes.content_unlink_self _ _
    obtain ⟨s, hrun, hgone⟩ := hrun
    rcases (halways _ s (List.prefix_refl _) hrun).whole with hold | hnew
    · rw [hgone] at hold
      revert hold
      decide
    · rw [hgone] at hnew
      cases hnew
  · intro halways
    have hrun : ∃ s : Writers Bool, Run (Step (ascii "entry.json")
        fun second => if second then ascii "two" else ascii "one")
        (start Bool sampleDisk) sharedTmp s ∧
          s.disk.content (ascii "entry.json") = some [] := by
      refine ⟨_, Run.cons_iff.mpr ⟨_, .opened rfl, Run.cons_iff.mpr ⟨_, .wrote rfl ?_,
        Run.cons_iff.mpr ⟨_, .closed rfl rfl, Run.cons_iff.mpr ⟨_, .opened rfl,
          Run.cons_iff.mpr ⟨_, .renamed rfl ?_, .start⟩⟩⟩⟩⟩, ?_⟩
      · decide
      · decide
      · decide
    obtain ⟨s, hrun, hbegun⟩ := hrun
    rcases halways _ s (List.prefix_refl _) hrun with hold | ⟨second, hwhole⟩
    · rw [hbegun] at hold
      revert hold
      decide
    · rw [hbegun] at hwhole
      revert second
      decide

end Writers

end LibEmbedding
