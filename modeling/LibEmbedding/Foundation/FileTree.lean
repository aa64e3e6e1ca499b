import Mathlib.Tactic

/-!
# File trees

A file system without links: places, what a path leads to, and the calls that make, remove
and rename. The lemmas say which files a call leaves as they are.
-/

namespace LibEmbedding.Foundation

/-- What stands between two slashes of a path. An empty one stays where it is. -/
inductive Segment (ν : Type u)
  | here
  | up
  | name (n : ν)
  deriving DecidableEq

inductive Node (β : Type u)
  | directory
  | file (content : β)
  deriving DecidableEq

/-- The names from the root down. -/
abbrev Place (ν : Type u) := List ν

/-- The first entry of a place is what stands there. -/
structure FileTree (ν : Type u) (β : Type v) where
  entries : List (Place ν × Node β)

/-- Where a path leads, as long as its directories exist. -/
def follow {ν : Type u} : Place ν → List (Segment ν) → Place ν
  | p, [] => p
  | p, .here :: path => follow p path
  | p, .up :: path => follow p.dropLast path
  | p, .name n :: path => follow (p ++ [n]) path

namespace FileTree

variable {ν : Type u} {β : Type v} [DecidableEq ν]

def node (t : FileTree ν β) (p : Place ν) : Option (Node β) :=
  (t.entries.find? (·.1 = p)).map (·.2)

def file (t : FileTree ν β) (p : Place ν) : Option β :=
  match t.node p with
  | some (.file content) => some content
  | _ => none

def isDirectory (t : FileTree ν β) (p : Place ν) : Bool :=
  p = [] || match t.node p with
    | some .directory => true
    | _ => false

def put (t : FileTree ν β) (p : Place ν) (n : Node β) : FileTree ν β := ⟨(p, n) :: t.entries⟩

def erase (t : FileTree ν β) (p : Place ν) : FileTree ν β := ⟨t.entries.filter (·.1 ≠ p)⟩

def hasChild (t : FileTree ν β) (p : Place ν) : Bool :=
  t.entries.any fun entry => p.isPrefixOf entry.1 && entry.1 ≠ p

/-- Path resolution from `p`: every step is taken in a directory. -/
def walk (t : FileTree ν β) : Place ν → List (Segment ν) → Option (Place ν)
  | p, [] => some p
  | p, segment :: path =>
    if t.isDirectory p then t.walk (follow p [segment]) path else none

/-- `stat` -/
def present (t : FileTree ν β) (p : Place ν) (path : List (Segment ν)) : Bool :=
  match t.walk p path with
  | some q => q = [] || (t.node q).isSome
  | none => false

/-- Whether a path leads to a file. -/
def isFile (t : FileTree ν β) (p : Place ν) (path : List (Segment ν)) : Bool :=
  match t.walk p path with
  | some q => (t.file q).isSome
  | none => false

/-- `mkdir`, which fails except where something stands already. It ignores final slashes. -/
def mkdir (t : FileTree ν β) (p : Place ν) (path : List (Segment ν)) : Option (FileTree ν β) :=
  match t.walk p (path.reverse.dropWhile (· = .here)).reverse with
  | some q => some (if q = [] || (t.node q).isSome then t else t.put q .directory)
  | none => none

/-- `fopen` for writing: the place of a file whose content is new. -/
def create (t : FileTree ν β) (p : Place ν) (path : List (Segment ν)) (content : β) :
    Option (FileTree ν β × Place ν) :=
  match t.walk p path with
  | some q => if t.isDirectory q then none else some (t.put q (.file content), q)
  | none => none

/-- `remove`: a file, or a directory that is empty. -/
def remove (t : FileTree ν β) (p : Place ν) (path : List (Segment ν)) : FileTree ν β :=
  match t.walk p path with
  | some q => if t.isDirectory q && t.hasChild q then t else t.erase q
  | none => t

/-- `rename` of a file. -/
def rename (t : FileTree ν β) (p : Place ν) (old new : List (Segment ν)) :
    Option (FileTree ν β) :=
  match t.walk p old, t.walk p new with
  | some q, some r =>
    match t.file q with
    | some content =>
      if t.isDirectory r then none
      else if q = r then some t
      else some ((t.erase q).put r (.file content))
    | none => none
  | _, _ => none

omit [DecidableEq ν] in
theorem follow_append (p : Place ν) (path path' : List (Segment ν)) :
    follow p (path ++ path') = follow (follow p path) path' := by
  induction path generalizing p with
  | nil => rfl
  | cons segment path ih =>
    cases segment with
    | here => exact ih p
    | up => exact ih p.dropLast
    | name n => exact ih (p ++ [n])

theorem walk_follow {t : FileTree ν β} (h : t.walk p path = some q) : q = follow p path := by
  induction path generalizing p with
  | nil =>
    cases h
    rfl
  | cons segment path ih =>
    unfold walk at h
    split at h
    · rw [ih h, ← follow_append, List.singleton_append]
    · cases h

theorem node_put (t : FileTree ν β) (p q : Place ν) (n : Node β) :
    (t.put p n).node q = if p = q then some n else t.node q := by
  rw [node, put, List.find?_cons]
  by_cases hq : p = q
  · simp [hq]
  · simp [hq, node]

theorem node_erase (t : FileTree ν β) (p q : Place ν) :
    (t.erase p).node q = if p = q then none else t.node q := by
  by_cases hq : p = q
  · subst hq
    rw [if_pos rfl, node, erase, List.find?_filter, Option.map_eq_none_iff,
      List.find?_eq_none]
    intro entry _
    simp
  · rw [if_neg hq, node, erase, List.find?_filter, node]
    congr 2
    funext entry
    by_cases hentry : entry.1 = q
    · simp [hentry, Ne.symm hq]
    · simp [hentry]

theorem file_put (t : FileTree ν β) (p q : Place ν) (n : Node β) :
    (t.put p n).file q = if p = q then (match n with
      | .file content => some content
      | .directory => none) else t.file q := by
  rw [file, node_put]
  by_cases hq : p = q
  · rw [if_pos hq, if_pos hq]
    cases n with
    | directory => rfl
    | file content => rfl
  · rw [if_neg hq, if_neg hq, file]

theorem file_erase (t : FileTree ν β) (p q : Place ν) :
    (t.erase p).file q = if p = q then none else t.file q := by
  rw [file, node_erase]
  by_cases hq : p = q
  · rw [if_pos hq, if_pos hq]
  · rw [if_neg hq, if_neg hq, file]

/-- A new directory is no file, and stands where there was none. -/
theorem file_mkdir {t t' : FileTree ν β} (h : t.mkdir p path = some t') (q : Place ν) :
    t'.file q = t.file q := by
  unfold mkdir at h
  split at h
  · rename_i r _
    cases h
    split
    · rfl
    · rename_i hfree
      rw [Bool.or_eq_true, not_or] at hfree
      rw [file_put]
      by_cases hr : r = q
      · rw [if_pos hr, file, ← hr, Option.not_isSome_iff_eq_none.mp hfree.2]
      · rw [if_neg hr]
  · cases h

theorem isFile_file {t : FileTree ν β} (h : t.isFile p path) :
    ∃ content, t.file (follow p path) = some content := by
  unfold isFile at h
  split at h
  · rename_i q hq
    rw [← walk_follow hq]
    exact Option.isSome_iff_exists.mp h
  · cases h

theorem create_place {t t' : FileTree ν β} (h : t.create p path content = some (t', q)) :
    q = follow p path ∧ t' = t.put q (.file content) := by
  unfold create at h
  split at h
  · rename_i r hr
    split at h
    · cases h
    · cases h
      exact ⟨walk_follow hr, rfl⟩
  · cases h

/-- Nothing is removed but what the path leads to. -/
theorem file_remove (t : FileTree ν β) (hq : q ≠ follow p path) :
    (t.remove p path).file q = t.file q := by
  unfold remove
  split
  · rename_i r hr
    split
    · rfl
    · rw [file_erase, if_neg]
      rintro rfl
      exact hq (walk_follow hr)
  · rfl

theorem file_of_remove {t : FileTree ν β} (h : (t.remove p path).file q = some content) :
    t.file q = some content := by
  unfold remove at h
  split at h
  · split at h
    · exact h
    · rw [file_erase] at h
      split at h
      · cases h
      · exact h
  · exact h

/-- The file is where the new path leads, and gone from where the old one does. -/
theorem file_rename {t t' : FileTree ν β} (h : t.rename p old new = some t') :
    ∃ content, t.file (follow p old) = some content ∧
      t'.file (follow p new) = some content ∧
        ∀ q, q ≠ follow p old → q ≠ follow p new → t'.file q = t.file q := by
  unfold rename at h
  split at h
  · rename_i q r hq hr
    rw [← walk_follow hq, ← walk_follow hr]
    split at h
    · rename_i content hcontent
      refine ⟨content, hcontent, ?_⟩
      split at h
      · cases h
      · split at h
        · rename_i hsame
          cases h
          exact ⟨hsame ▸ hcontent, fun _ _ _ => rfl⟩
        · cases h
          refine ⟨?_, fun s hold hnew => ?_⟩
          · rw [file_put, if_pos rfl]
          · rw [file_put, if_neg (Ne.symm hnew), file_erase, if_neg (Ne.symm hold)]
    · cases h
  · cases h

-- ---------------------------------------------------------------------------
-- Directories and what is below them
-- ---------------------------------------------------------------------------

/-- The names of the directories in a directory, each once. -/
def childDirs (t : FileTree ν β) (p : Place ν) : List ν :=
  (t.entries.filterMap fun entry =>
    if entry.1.dropLast = p then entry.1.getLast? else none).dedup.filter
      fun n => t.isDirectory (p ++ [n])

/-- The total size of the files below a place. -/
def sizeBelow (t : FileTree ν β) (size : β → Nat) (p : Place ν) : Nat :=
  (((t.entries.map (·.1)).dedup.filter fun q => p.isPrefixOf q && q ≠ p).map fun q =>
    ((t.file q).map size).getD 0).sum

/-- The tree without the places that do not stay. -/
def restrict (t : FileTree ν β) (stays : Place ν → Bool) : FileTree ν β :=
  ⟨t.entries.filter fun entry => stays entry.1⟩

theorem node_restrict (t : FileTree ν β) (stays : Place ν → Bool) (q : Place ν) :
    (t.restrict stays).node q = if stays q then t.node q else none := by
  rw [node, restrict, List.find?_filter]
  by_cases hq : stays q = true
  · rw [if_pos hq, node]
    congr 2
    funext entry
    by_cases hentry : entry.1 = q
    · simp [hentry, hq]
    · simp [hentry]
  · rw [if_neg hq, Option.map_eq_none_iff, List.find?_eq_none]
    intro entry _
    simp only [decide_eq_true_eq, not_and]
    rintro hstays rfl
    exact hq hstays

theorem isDirectory_snoc {t : FileTree ν β} {p : Place ν} :
    t.isDirectory (p ++ [n]) = true ↔ t.node (p ++ [n]) = some .directory := by
  unfold isDirectory
  rw [Bool.or_eq_true, decide_eq_true_eq]
  constructor
  · rintro (hnil | hnode)
    · simp at hnil
    · split at hnode
      · assumption
      · cases hnode
  · intro h
    rw [h]
    exact .inr rfl

theorem mem_childDirs {t : FileTree ν β} {p : Place ν} :
    n ∈ t.childDirs p ↔ t.node (p ++ [n]) = some .directory := by
  rw [childDirs, List.mem_filter, List.mem_dedup, List.mem_filterMap, isDirectory_snoc]
  constructor
  · rintro ⟨-, h⟩
    exact h
  · intro h
    refine ⟨?_, h⟩
    obtain ⟨entry, hfind, -⟩ := Option.map_eq_some_iff.mp h
    have hplace : entry.1 = p ++ [n] := by simpa using List.find?_some hfind
    refine ⟨entry, List.mem_of_find?_eq_some hfind, ?_⟩
    rw [hplace, List.dropLast_concat, if_pos rfl, List.getLast?_concat]

omit [DecidableEq ν] in
/-- Two directories in one directory have nothing below them in common. -/
theorem eq_of_below {p q : Place ν} (h : p ++ [n] <+: q) (h' : p ++ [n'] <+: q) : n = n' := by
  have hsame := List.prefix_of_prefix_length_le h h' (by simp)
  have heq := hsame.eq_of_length (by simp)
  simpa using heq

end FileTree

end LibEmbedding.Foundation
