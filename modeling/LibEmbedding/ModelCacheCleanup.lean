import LibEmbedding.ModelCacheIdentity

/-!
# Cleaning up the model cache

`lembed_cleanup_model_cache` of `downloader.h` over the directory that `ensure_model` and
`lembed_ensure_gguf_model` fill: it removes the directories of all models but those to keep.
-/

namespace LibEmbedding

open Foundation

/-- What a registry entry calls a model, and the repository its files come from. -/
structure ModelNames where
  modelName : Bytes
  modelCode : Bytes
  deriving DecidableEq

/-- What becomes of a `remove_all`. One that fails may have removed a part of what is below
the directory. -/
inductive Removal
  | done
  | failed (stays : Place Bytes → Bool)

/-- `deleted_count` and `freed_bytes` -/
structure CleanupReply where
  deletedCount : Nat
  freedBytes : Nat
  deriving DecidableEq

namespace ModelCache

def keepDirs (keepModels : List Bytes) : List Bytes :=
  keepModels.map fun model => ascii "models--" ++ repoToDirname model

/-- `is_directory(cache)` -/
def cacheIsDirectory (c : ModelCache) (fs : ModelFiles) : Bool :=
  match fs.walk (c.start c.cacheDir) (segments c.cacheDir) with
  | some p => fs.isDirectory p
  | none => false

/-- The place of a directory of the cache. -/
def dirPlace (c : ModelCache) (dirName : Bytes) : Place Bytes := c.placeOf c.cacheDir ++ [dirName]

def toDelete (c : ModelCache) (fs : ModelFiles) (keepModels : List Bytes) : List Bytes :=
  (fs.childDirs (c.placeOf c.cacheDir)).filter fun dirName =>
    (ascii "models--").isPrefixOf dirName && !(keepDirs keepModels).contains dirName

def dirSize (c : ModelCache) (fs : ModelFiles) (dirName : Bytes) : Nat :=
  fs.sizeBelow List.length (c.dirPlace dirName)

/-- Whether a removal takes what stands at a place. The directory itself goes last. -/
def takes (c : ModelCache) (removal : Removal) (dirName : Bytes) (p : Place Bytes) : Bool :=
  (c.dirPlace dirName).isPrefixOf p && match removal with
    | .done => true
    | .failed stays => p ≠ c.dirPlace dirName && !stays p

def removeDir (c : ModelCache) (removals : Bytes → Removal) (s : ModelFiles × Nat)
    (dirName : Bytes) : ModelFiles × Nat :=
  let fs := s.1.restrict fun p => !c.takes (removals dirName) dirName p
  match removals dirName with
  | .done => (fs, s.2 + 1)
  | .failed _ => (fs, s.2)

/-- `lembed_cleanup_model_cache`, the report on the error stream apart. -/
def cleanup (c : ModelCache) (removals : Bytes → Removal) (fs : ModelFiles)
    (keepModels : List Bytes) (dryRun : Bool) : ModelFiles × CleanupReply :=
  if c.cacheIsDirectory fs then
    let toDelete := c.toDelete fs keepModels
    let localFreed := (toDelete.map (c.dirSize fs)).sum
    if dryRun then (fs, ⟨toDelete.length, localFreed⟩)
    else
      let (fs, localDeleted) := toDelete.foldl (c.removeDir removals) (fs, 0)
      (fs, ⟨localDeleted, localFreed⟩)
  else (fs, ⟨0, 0⟩)

-- ---------------------------------------------------------------------------
-- What a cleanup removes
-- ---------------------------------------------------------------------------

variable {c : ModelCache} {fs : ModelFiles} {removals : Bytes → Removal} {keepModels : List Bytes}

instance (removal : Removal) : Decidable (removal = .done) :=
  match removal with
  | .done => .isTrue rfl
  | .failed _ => .isFalse nofun

theorem takes_below (h : c.takes removal dirName p = true) : c.dirPlace dirName <+: p := by
  unfold takes at h
  rw [Bool.and_eq_true] at h
  exact List.isPrefixOf_iff_prefix.mp h.1

/-- A removal takes its directory exactly when it succeeds. -/
theorem takes_dir : c.takes removal dirName (c.dirPlace dirName) = true ↔ removal = .done := by
  have hpre : (c.dirPlace dirName).isPrefixOf (c.dirPlace dirName) = true :=
    List.isPrefixOf_iff_prefix.mpr (List.prefix_refl _)
  unfold takes
  rw [hpre]
  cases removal with
  | done => simp
  | failed stays => simp

variable (c removals) in
theorem foldl_removeDir (dirs : List Bytes) (s : ModelFiles × Nat) :
    (dirs.foldl (c.removeDir removals) s).2 =
        s.2 + dirs.countP (fun dirName => removals dirName = .done) ∧
      ∀ p, (dirs.foldl (c.removeDir removals) s).1.node p =
        if dirs.any (fun dirName => c.takes (removals dirName) dirName p) then none
        else s.1.node p := by
  induction dirs generalizing s with
  | nil => exact ⟨rfl, fun p => rfl⟩
  | cons dirName dirs ih =>
    obtain ⟨hcount, hnode⟩ := ih (c.removeDir removals s dirName)
    have htree : (c.removeDir removals s dirName).1 =
        s.1.restrict fun p => !c.takes (removals dirName) dirName p := by
      unfold removeDir
      dsimp only
      split <;> rfl
    have hdeleted : (c.removeDir removals s dirName).2 =
        s.2 + if removals dirName = .done then 1 else 0 := by
      unfold removeDir
      cases removals dirName with
      | done => rfl
      | failed stays => rfl
    constructor
    · rw [List.foldl_cons, hcount, hdeleted, List.countP_cons]
      simp only [decide_eq_true_eq]
      omega
    · intro p
      rw [List.foldl_cons, hnode, htree, FileTree.node_restrict, List.any_cons]
      cases c.takes (removals dirName) dirName p with
      | true => simp
      | false => simp

/-- The directories of the cache that a call has removed. -/
def removedDirs (c : ModelCache) (fs fs' : ModelFiles) : List Bytes :=
  (fs.childDirs (c.placeOf c.cacheDir)).filter fun dirName => fs'.node (c.dirPlace dirName) = none

/-- A directory of the cache that looks like one of a model and is not among those to keep. -/
def Targeted (c : ModelCache) (fs : ModelFiles) (keepModels : List Bytes) (dirName : Bytes) :
    Prop :=
  fs.node (c.dirPlace dirName) = some .directory ∧ ascii "models--" <+: dirName ∧
    dirName ∉ keepDirs keepModels

theorem mem_toDelete : dirName ∈ c.toDelete fs keepModels ↔ c.Targeted fs keepModels dirName := by
  rw [toDelete, List.mem_filter, FileTree.mem_childDirs, Bool.and_eq_true,
    List.isPrefixOf_iff_prefix]
  simp [Targeted, dirPlace]

theorem cleanup_real (hdir : c.cacheIsDirectory fs = true) :
    c.cleanup removals fs keepModels false =
      (((c.toDelete fs keepModels).foldl (c.removeDir removals) (fs, 0)).1,
        ⟨((c.toDelete fs keepModels).foldl (c.removeDir removals) (fs, 0)).2,
          ((c.toDelete fs keepModels).map (c.dirSize fs)).sum⟩) := by
  rw [cleanup, if_pos hdir]
  rfl

theorem node_cleanup (hdir : c.cacheIsDirectory fs = true) (p : Place Bytes) :
    (c.cleanup removals fs keepModels false).1.node p =
      if (c.toDelete fs keepModels).any (fun dirName => c.takes (removals dirName) dirName p)
      then none else fs.node p := by
  rw [cleanup_real hdir]
  exact (foldl_removeDir _ _ _ _).2 p

/-- The directories that are gone are those whose removal has succeeded. -/
theorem removedDirs_cleanup (hdir : c.cacheIsDirectory fs = true) :
    c.removedDirs fs (c.cleanup removals fs keepModels false).1 =
      (c.toDelete fs keepModels).filter fun dirName => removals dirName = .done := by
  rw [removedDirs, toDelete, List.filter_filter]
  refine List.filter_congr fun dirName hmem => ?_
  have hnode := FileTree.mem_childDirs.mp hmem
  have hthere : fs.node (c.dirPlace dirName) ≠ none := by
    intro hnone
    cases hnone.symm.trans hnode
  rw [Bool.eq_iff_iff, decide_eq_true_eq, Bool.and_eq_true, decide_eq_true_eq, node_cleanup hdir]
  constructor
  · intro hgone
    split at hgone
    · rename_i htaken
      obtain ⟨other, hother, htakes⟩ := List.any_eq_true.mp htaken
      obtain rfl := FileTree.eq_of_below (takes_below htakes) (List.prefix_refl _)
      exact ⟨takes_dir.mp htakes, (List.mem_filter.mp hother).2⟩
    · exact absurd hgone hthere
  · rintro ⟨hdone, htarget⟩
    have htaken : (c.toDelete fs keepModels).any (fun other =>
        c.takes (removals other) other (c.dirPlace dirName)) = true := by
      apply List.any_eq_true.mpr
      exact ⟨dirName, List.mem_filter.mpr ⟨hmem, htarget⟩, takes_dir.mpr hdone⟩
    rw [if_pos htaken]

-- ---------------------------------------------------------------------------
-- Exact cleanups
-- ---------------------------------------------------------------------------

/-- An identifier of a model names a repository: it is the repository, or the registry has it
as the name of a model from there. -/
def Identifies (registry : List ModelNames) (model repo : Bytes) : Prop :=
  model = repo ∨ ⟨model, repo⟩ ∈ registry

/-- The directory is that of a model on the keep list: `ensure_model` and
`lembed_ensure_gguf_model` put the files of its repository there. -/
def OfKept (c : ModelCache) (registry : List ModelNames) (keepModels : List Bytes)
    (dirName : Bytes) : Prop :=
  ∃ model ∈ keepModels, ∃ repo, Identifies registry model repo ∧
    c.placeOf (c.modelDir repo) = c.dirPlace dirName

/-- A cleanup of a cache removes only directories of models that are not to be kept, it
reports the directories that are gone, and a dry run reports what one without failures would. -/
structure CleanupExact (c : ModelCache) (registry : List ModelNames) (fs : ModelFiles)
    (keepModels : List Bytes) (removals : Bytes → Removal) : Prop where
  spares : ∀ p, (c.cleanup removals fs keepModels false).1.node p ≠ fs.node p →
    ∃ dirName, c.dirPlace dirName <+: p ∧ ascii "models--" <+: dirName ∧
      ¬c.OfKept registry keepModels dirName
  deleted : (c.cleanup removals fs keepModels false).2.deletedCount =
    (c.removedDirs fs (c.cleanup removals fs keepModels false).1).length
  freed : (c.cleanup removals fs keepModels false).2.freedBytes =
    ((c.removedDirs fs (c.cleanup removals fs keepModels false).1).map (c.dirSize fs)).sum
  dry : c.cleanup removals fs keepModels true =
    (fs, (c.cleanup (fun _ => .done) fs keepModels false).2)

/-- A directory of a kept model is named after an identifier of the list, unless nothing of it
can be removed, and a directory that cannot be removed holds no bytes. -/
structure CleanupFits (c : ModelCache) (registry : List ModelNames) (fs : ModelFiles)
    (keepModels : List Bytes) (removals : Bytes → Removal) : Prop where
  named : ∀ dirName, c.Targeted fs keepModels dirName → c.OfKept registry keepModels dirName →
    ∀ p, c.takes (removals dirName) dirName p = true → fs.node p = none
  empty : ∀ dirName, c.Targeted fs keepModels dirName → removals dirName ≠ .done →
    c.dirSize fs dirName = 0

theorem sum_filter_eq {l : List α} {f : α → Nat} {p : α → Bool} :
    (l.map f).sum = ((l.filter p).map f).sum ↔ ∀ x ∈ l, p x = false → f x = 0 := by
  induction l with
  | nil => simp
  | cons x l ih =>
    rw [List.forall_mem_cons, ← ih]
    have hle : ((l.filter p).map f).sum ≤ (l.map f).sum :=
      ((List.filter_sublist (p := p)).map f).sum_le_sum fun _ _ => Nat.zero_le _
    cases hx : p x with
    | true =>
      rw [List.filter_cons_of_pos hx, List.map_cons, List.map_cons, List.sum_cons, List.sum_cons]
      simp
    | false =>
      rw [List.filter_cons_of_neg (by simp [hx]), List.map_cons, List.sum_cons]
      constructor
      · intro h
        exact ⟨fun _ => by omega, by omega⟩
      · rintro ⟨hzero, heq⟩
        have := hzero rfl
        omega

/-- A run without failures removes all directories it is after. -/
theorem cleanup_dry (removals : Bytes → Removal) : c.cleanup removals fs keepModels true =
    (fs, (c.cleanup (fun _ => .done) fs keepModels false).2) := by
  by_cases hdir : c.cacheIsDirectory fs = true
  · rw [cleanup_real hdir, cleanup, if_pos hdir]
    have hcount := (foldl_removeDir c (fun _ => .done) (c.toDelete fs keepModels) (fs, 0)).1
    simp only [decide_true, List.countP_true, Nat.zero_add] at hcount
    rw [hcount]
    rfl
  · rw [cleanup, if_neg hdir, cleanup, if_neg hdir]

variable {registry : List ModelNames}

theorem spares_iff (hdir : c.cacheIsDirectory fs = true) :
    (∀ p, (c.cleanup removals fs keepModels false).1.node p ≠ fs.node p →
      ∃ dirName, c.dirPlace dirName <+: p ∧ ascii "models--" <+: dirName ∧
        ¬c.OfKept registry keepModels dirName) ↔
    ∀ dirName, c.Targeted fs keepModels dirName → c.OfKept registry keepModels dirName →
      ∀ p, c.takes (removals dirName) dirName p = true → fs.node p = none := by
  constructor
  · intro h dirName htarget hkept p htakes
    by_contra hthere
    have htaken : (c.toDelete fs keepModels).any (fun other =>
        c.takes (removals other) other p) = true :=
      List.any_eq_true.mpr ⟨dirName, mem_toDelete.mpr htarget, htakes⟩
    have hgone : (c.cleanup removals fs keepModels false).1.node p = none := by
      rw [node_cleanup hdir, if_pos htaken]
    have hchanged : (c.cleanup removals fs keepModels false).1.node p ≠ fs.node p := by
      rw [hgone]
      exact fun heq => hthere heq.symm
    obtain ⟨other, hbelow, _, hother⟩ := h p hchanged
    obtain rfl := FileTree.eq_of_below hbelow (takes_below htakes)
    exact hother hkept
  · intro h p hchanged
    rw [node_cleanup hdir] at hchanged
    split at hchanged
    · rename_i htaken
      obtain ⟨dirName, hmem, htakes⟩ := List.any_eq_true.mp htaken
      have htarget := mem_toDelete.mp hmem
      refine ⟨dirName, takes_below htakes, htarget.2.1, ?_⟩
      intro hkept
      exact hchanged (h dirName htarget hkept p htakes).symm
    · exact absurd rfl hchanged

theorem freed_iff (hdir : c.cacheIsDirectory fs = true) :
    (c.cleanup removals fs keepModels false).2.freedBytes =
      ((c.removedDirs fs (c.cleanup removals fs keepModels false).1).map (c.dirSize fs)).sum ↔
    ∀ dirName, c.Targeted fs keepModels dirName → removals dirName ≠ .done →
      c.dirSize fs dirName = 0 := by
  rw [removedDirs_cleanup hdir, cleanup_real hdir]
  dsimp only
  rw [sum_filter_eq]
  constructor
  · intro h dirName htarget hfailed
    exact h dirName (mem_toDelete.mpr htarget) (decide_eq_false hfailed)
  · intro h dirName hmem hfailed
    exact h dirName (mem_toDelete.mp hmem) (of_decide_eq_false hfailed)

theorem deleted_cleanup (hdir : c.cacheIsDirectory fs = true) :
    (c.cleanup removals fs keepModels false).2.deletedCount =
      (c.removedDirs fs (c.cleanup removals fs keepModels false).1).length := by
  rw [removedDirs_cleanup hdir, cleanup_real hdir, ← List.countP_eq_length_filter]
  simpa using (foldl_removeDir c removals (c.toDelete fs keepModels) (fs, 0)).1

/-- Without a cache directory there is nothing to clean up. -/
theorem exact_of_no_cache (hdir : ¬c.cacheIsDirectory fs = true) :
    c.CleanupExact registry fs keepModels removals := by
  have hnone : c.removedDirs fs fs = [] := by
    rw [removedDirs, List.filter_eq_nil_iff]
    intro dirName hmem hgone
    cases (of_decide_eq_true hgone).symm.trans (FileTree.mem_childDirs.mp hmem)
  have hsame : c.cleanup removals fs keepModels false = (fs, ⟨0, 0⟩) := by
    rw [cleanup, if_neg hdir]
  constructor
  · intro p hchanged
    rw [hsame] at hchanged
    exact absurd rfl hchanged
  · rw [hsame, hnone]
    rfl
  · rw [hsame, hnone]
    rfl
  · exact cleanup_dry removals

/-- A cleanup is exact just when the directories of kept models lose nothing and the failing
removals were after no bytes. -/
theorem cleanupExact_iff : c.CleanupExact registry fs keepModels removals ↔
    (c.cacheIsDirectory fs = true → c.CleanupFits registry fs keepModels removals) := by
  constructor
  · intro h hdir
    exact ⟨(spares_iff hdir).mp h.spares, (freed_iff hdir).mp h.freed⟩
  · intro h
    by_cases hdir : c.cacheIsDirectory fs = true
    · obtain ⟨hnamed, hempty⟩ := h hdir
      exact ⟨(spares_iff hdir).mpr hnamed, deleted_cleanup hdir, (freed_iff hdir).mpr hempty,
        cleanup_dry removals⟩
    · exact exact_of_no_cache hdir

/-- A cache that holds the files of one registered model. -/
def onlySmall : ModelFiles :=
  (sample.ensure (fun _ => .delivered) ⟨[]⟩
    (.model (ascii "Xenova/bge-small-en-v1.5") (ascii "onnx/model.onnx") [] false)).1

def smallRegistry : List ModelNames :=
  [⟨ascii "BAAI/bge-small-en-v1.5", ascii "Xenova/bge-small-en-v1.5"⟩]

/-- Keeping the model by its registry name loses its directory. -/
theorem named_model_removed : ¬sample.CleanupExact smallRegistry onlySmall
    [ascii "BAAI/bge-small-en-v1.5"] (fun _ => .done) := by
  intro h
  have hplace : sample.placeOf (sample.modelDir (ascii "Xenova/bge-small-en-v1.5")) =
      sample.dirPlace (ascii "models--Xenova-bge-small-en-v1.5") := by decide +kernel
  have hthere : onlySmall.node
      (sample.dirPlace (ascii "models--Xenova-bge-small-en-v1.5")) = some .directory := by
    decide +kernel
  have hgone : (sample.cleanup (fun _ => .done) onlySmall [ascii "BAAI/bge-small-en-v1.5"]
      false).1.node (sample.dirPlace (ascii "models--Xenova-bge-small-en-v1.5")) = none := by
    decide +kernel
  obtain ⟨dirName, hbelow, _, hspared⟩ := h.spares
    (sample.dirPlace (ascii "models--Xenova-bge-small-en-v1.5")) (by rw [hgone, hthere]; nofun)
  obtain rfl := FileTree.eq_of_below hbelow (List.prefix_refl _)
  exact hspared ⟨_, List.mem_singleton_self _, _, .inr (List.mem_singleton_self _), hplace⟩

end ModelCache

end LibEmbedding
