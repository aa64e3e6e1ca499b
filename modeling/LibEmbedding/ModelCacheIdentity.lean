import LibEmbedding.Foundation.Runs
import LibEmbedding.ModelCache

/-!
# Whose file is served

A call gives a file of its own repository as long as no two files of a run lead to one
place: the downloads, the loop over the files of a model, and the runs.
-/

namespace LibEmbedding

open Foundation

-- ---------------------------------------------------------------------------
-- Paths
-- ---------------------------------------------------------------------------

theorem parts_ne_nil (path : Bytes) : parts path ≠ [] := by
  cases path with
  | nil => exact List.cons_ne_nil _ _
  | cons c rest =>
    unfold parts
    split
    · exact List.cons_ne_nil _ _
    · split
      · exact List.cons_ne_nil _ _
      · exact List.cons_ne_nil _ _

theorem parts_append (path path' : Bytes) :
    parts (path ++ 47 :: path') = parts path ++ parts path' := by
  induction path with
  | nil => rfl
  | cons c rest ih =>
    rw [List.cons_append, parts, parts, ih]
    split
    · rfl
    · cases hrest : parts rest with
      | nil => exact absurd hrest (parts_ne_nil rest)
      | cons part others => rfl

/-- A path without a slash is one name. -/
theorem parts_single (h : 47 ∉ path) : parts path = [path] := by
  induction path with
  | nil => rfl
  | cons c rest ih =>
    obtain ⟨hc, hrest⟩ := not_or.mp fun hmem => h (List.mem_cons.mpr hmem)
    rw [parts, if_neg (Ne.symm hc), ih hrest]

theorem segments_append (path path' : Bytes) :
    segments (path ++ ascii "/" ++ path') = segments path ++ segments path' := by
  have hslash : ascii "/" = [47] := rfl
  rw [segments, segments, segments, hslash, List.append_assoc, List.singleton_append,
    parts_append, List.map_append]

/-- A sanitized repository name is a name: it has no slash, and is no dots. -/
theorem segments_repoToDirname (repo : Bytes) :
    segments (ascii "models--" ++ repoToDirname repo) =
      [.name (ascii "models--" ++ repoToDirname repo)] := by
  have hslash : (47 : UInt8) ∉ ascii "models--" ++ repoToDirname repo := by
    rw [List.mem_append]
    rintro (hpre | hname)
    · exact absurd hpre (by decide)
    · obtain ⟨c, -, hc⟩ := List.mem_map.mp hname
      split at hc
      · cases hc
      · contradiction
  have hlength : 8 ≤ (ascii "models--" ++ repoToDirname repo).length := by
    rw [List.length_append]
    exact Nat.le_add_right _ _
  have hnotShort (part : Bytes) (hpart : part.length < 8) :
      ascii "models--" ++ repoToDirname repo ≠ part := by
    rintro rfl
    exact absurd hlength (not_le.mpr hpart)
  rw [segments, parts_single hslash, List.map_singleton, segmentOf, if_neg, if_neg]
  · exact hnotShort _ (by decide)
  · exact not_or.mpr ⟨hnotShort _ (by decide), hnotShort _ (by decide)⟩

namespace ModelCache

/-- A file of a repository. -/
abbrev Wanted := Bytes × Bytes

/-- Where a path leads. -/
def placeOf (c : ModelCache) (path : Bytes) : Place Bytes := follow (c.start path) (segments path)

def location (c : ModelCache) (w : Wanted) : Place Bytes := c.placeOf (c.destOf w.1 w.2)

def tmpLocation (c : ModelCache) (w : Wanted) : Place Bytes :=
  c.placeOf (c.destOf w.1 w.2 ++ ascii ".tmp")

/-- What the endpoint has as that file of that repository. -/
def original (c : ModelCache) (w : Wanted) : Option Bytes := c.serves (c.url w.1 w.2)

def Inside (c : ModelCache) (p : Place Bytes) : Prop :=
  c.placeOf c.cacheDir <+: p ∧ p ≠ c.placeOf c.cacheDir

instance (c : ModelCache) : DecidablePred c.Inside := fun _ => inferInstanceAs (Decidable (_ ∧ _))

/-- The file is there, and it is the endpoint's. -/
def Copy (c : ModelCache) (fs : ModelFiles) (w : Wanted) : Prop :=
  ∃ body, fs.file (c.location w) = some body ∧ c.original w = some body

/-- Paths below the cache directory are resolved from where its own path is. -/
theorem start_append (c : ModelCache) (path : Bytes) :
    c.start (c.cacheDir ++ path) = c.start c.cacheDir := by
  rw [start, start, List.head?_append_of_ne_nil _ c.cacheDir_ne]

theorem placeOf_modelDir (c : ModelCache) (repo : Bytes) : c.placeOf (c.modelDir repo) =
    c.placeOf c.cacheDir ++ [ascii "models--" ++ repoToDirname repo] := by
  rw [placeOf, placeOf, modelDir, segments_append, FileTree.follow_append, segments_repoToDirname,
    List.append_assoc, start_append]
  rfl

theorem modelDir_inside (c : ModelCache) (repo : Bytes) : c.Inside (c.placeOf (c.modelDir repo)) := by
  rw [placeOf_modelDir]
  exact ⟨List.prefix_append _ _, fun hsame => by simpa using congrArg List.length hsame⟩

-- ---------------------------------------------------------------------------
-- One download
-- ---------------------------------------------------------------------------

theorem file_mkdirsFrom (c : ModelCache) (fs : ModelFiles) (current path : Bytes)
    (p : Place Bytes) : (c.mkdirsFrom fs current path).1.file p = fs.file p := by
  induction path generalizing fs current with
  | nil => rfl
  | cons ch rest ih =>
    unfold mkdirsFrom
    dsimp only
    split
    · split
      · exact ih _ _
      · split
        · rename_i made hmade
          rw [ih, FileTree.file_mkdir hmade]
        · rfl
    · exact ih _ _

theorem file_mkdirs (c : ModelCache) (fs : ModelFiles) (path : Bytes) (p : Place Bytes) :
    (c.mkdirs fs path).1.file p = fs.file p := file_mkdirsFrom c fs [] path p

/-- What a download leaves: `w` where it belongs, anything under its temporary name, and
every other file as it was. -/
structure Downloaded (c : ModelCache) (w : Wanted) (fs fs' : ModelFiles) (r : Download) :
    Prop where
  origin : ∀ p body, fs'.file p = some body → fs.file p = some body ∨
    (p = c.location w ∧ c.original w = some body) ∨ p = c.tmpLocation w
  kept : ∀ p, p ≠ c.location w → p ≠ c.tmpLocation w → fs'.file p = fs.file p
  copy : r = .ok → c.Copy fs' w

theorem destOf_ne_nil (c : ModelCache) (repo filename : Bytes) : c.destOf repo filename ≠ [] := by
  intro hnil
  have hcache : c.cacheDir = [] := by
    simp only [destOf, modelDir, List.append_eq_nil_iff] at hnil
    exact hnil.1.1.1.1
  exact c.cacheDir_ne hcache

theorem start_tmp (c : ModelCache) (repo filename : Bytes) :
    c.start (c.destOf repo filename ++ ascii ".tmp") = c.start (c.destOf repo filename) := by
  rw [start, start, List.head?_append_of_ne_nil _ (c.destOf_ne_nil repo filename)]

/-- With the body under the temporary name, the file is installed or gone. -/
theorem install_downloaded (c : ModelCache) {w : Wanted} {fs : ModelFiles} {body : Bytes}
    (htmp : fs.file (c.tmpLocation w) = some body) (hbody : c.original w = some body) :
    c.Downloaded w fs
      (c.install fs (c.destOf w.1 w.2 ++ ascii ".tmp") (c.destOf w.1 w.2)).1
      (c.install fs (c.destOf w.1 w.2 ++ ascii ".tmp") (c.destOf w.1 w.2)).2 := by
  unfold install
  dsimp only
  split
  · rename_i renamed hrename
    obtain ⟨content, hold, hnew, hothers⟩ := FileTree.file_rename hrename
    have hplace : c.tmpLocation w = follow (c.start (c.destOf w.1 w.2))
        (segments (c.destOf w.1 w.2 ++ ascii ".tmp")) := by rw [tmpLocation, placeOf, start_tmp]
    rw [← hplace] at hold hothers
    have hcontent : content = body := by
      have hbefore := FileTree.file_of_remove hold
      rw [htmp] at hbefore
      exact (Option.some.inj hbefore).symm
    rw [hcontent] at hnew
    constructor
    case origin =>
      intro p body' hp
      by_cases hloc : p = c.location w
      · rw [hloc] at hp
        exact .inr (.inl ⟨hloc, hbody.trans (hnew.symm.trans hp)⟩)
      by_cases htmpLoc : p = c.tmpLocation w
      · exact .inr (.inr htmpLoc)
      rw [hothers p htmpLoc hloc] at hp
      exact .inl (FileTree.file_of_remove hp)
    case kept =>
      intro p hloc htmpLoc
      rw [hothers p htmpLoc hloc]
      exact FileTree.file_remove fs hloc
    case copy => exact fun _ => ⟨body, hnew, hbody⟩
  · constructor
    case origin =>
      intro p body' hp
      exact .inl (FileTree.file_of_remove (FileTree.file_of_remove hp))
    case kept =>
      intro p hloc htmpLoc
      rw [removePath, FileTree.file_remove _ htmpLoc]
      exact FileTree.file_remove fs hloc
    case copy =>
      intro hok
      cases hok

/-- Only the temporary name has been written to. -/
theorem Downloaded.trans_tmp {c : ModelCache} {w : Wanted} {fs fs' fs'' : ModelFiles}
    (h : c.Downloaded w fs' fs'' r)
    (hothers : ∀ p, p ≠ c.tmpLocation w → fs'.file p = fs.file p) :
    c.Downloaded w fs fs'' r := by
  constructor
  case origin =>
    intro p body hp
    by_cases htmp : p = c.tmpLocation w
    · exact .inr (.inr htmp)
    rcases h.origin p body hp with hold | hnew
    · exact .inl (hothers p htmp ▸ hold)
    · exact .inr hnew
  case kept =>
    intro p hloc htmp
    rw [h.kept p hloc htmp, hothers p htmp]
  case copy => exact h.copy

/-- A download that goes no further than its temporary file. -/
theorem downloaded_tmp {c : ModelCache} {w : Wanted} {fs fs' : ModelFiles} {r : Download}
    (hr : r ≠ .ok) (hothers : ∀ p, p ≠ c.tmpLocation w → fs'.file p = fs.file p) :
    c.Downloaded w fs fs' r := by
  constructor
  case origin =>
    intro p body hp
    by_cases htmp : p = c.tmpLocation w
    · exact .inr (.inr htmp)
    · exact .inl (hothers p htmp ▸ hp)
  case kept => exact fun p _ htmp => hothers p htmp
  case copy => exact fun hok => absurd hok hr

theorem file_makeParent (c : ModelCache) (fs : ModelFiles) (path : Bytes) (p : Place Bytes) :
    (c.makeParent fs path).file p = fs.file p := by
  unfold makeParent
  split
  · exact file_mkdirs c fs _ p
  · rfl

theorem downloadHfFile_downloaded (c : ModelCache) (net : Bytes → Transfer) (fs : ModelFiles)
    (w : Wanted) :
    c.Downloaded w fs (c.downloadHfFile net fs w.1 w.2 (c.destOf w.1 w.2)).1
      (c.downloadHfFile net fs w.1 w.2 (c.destOf w.1 w.2)).2 := by
  unfold downloadHfFile
  dsimp only
  split
  · exact downloaded_tmp nofun fun p _ => file_makeParent c fs _ p
  · rename_i opened fp hcreate
    obtain ⟨rfl, rfl⟩ := FileTree.create_place hcreate
    have hopened (p : Place Bytes) (hp : p ≠ c.tmpLocation w) :
        ((c.makeParent fs (c.destOf w.1 w.2)).put (c.tmpLocation w) (.file [])).file p =
          fs.file p := by
      rw [FileTree.file_put, if_neg (Ne.symm hp), file_makeParent]
    have hput (content : Foundation.Node Bytes) (p : Place Bytes) (hp : p ≠ c.tmpLocation w) :
        (((c.makeParent fs (c.destOf w.1 w.2)).put (c.tmpLocation w) (.file [])).put
          (c.tmpLocation w) content).file p = fs.file p := by
      rw [FileTree.file_put, if_neg (Ne.symm hp), hopened p hp]
    split
    · exact downloaded_tmp nofun (hput _)
    · rename_i body hbody _
      refine Downloaded.trans_tmp (install_downloaded c ?_ hbody) (hput (.file body))
      rw [tmpLocation, placeOf, FileTree.file_put, if_pos rfl]
    · refine downloaded_tmp nofun fun p hp => ?_
      exact (FileTree.file_remove _ hp).trans (hopened p hp)

-- ---------------------------------------------------------------------------
-- One call
-- ---------------------------------------------------------------------------

end ModelCache

namespace CacheCall

def repo : CacheCall → Bytes
  | .gguf repo _ _ => repo
  | .model repoCode _ _ _ => repoCode

/-- The files a call looks for, of its own repository. A rejected call looks for none. -/
def files : CacheCall → List Bytes
  | .gguf repo filename _ => if repo = [] ∨ filename = [] then [] else [filename]
  | .model _ modelFile additionalFiles _ => ModelCache.filesOf modelFile additionalFiles

/-- The files a call asks for. -/
def asked : CacheCall → List Bytes
  | .gguf _ filename _ => [filename]
  | .model _ modelFile additionalFiles _ => modelFile :: additionalFiles

def wants (call : CacheCall) : List ModelCache.Wanted := call.files.map fun f => (call.repo, f)

end CacheCall

/-- The files, and a record of the calls: what they have looked for, the last of them with its
reply, and the places of the files they have served. -/
structure CacheState where
  fs : ModelFiles
  requested : List ModelCache.Wanted
  last : Option (CacheCall × CacheReply)
  served : List (ModelCache.Wanted × Place Bytes)

namespace ModelCache

/-- What a call that succeeded has served: those of its files that are there. -/
def serving (c : ModelCache) (fs : ModelFiles) (call : CacheCall) :
    CacheReply → List (Wanted × Place Bytes)
  | .path _ => (call.wants.filter fun w => (fs.file (c.location w)).isSome).map fun w =>
      (w, c.location w)
  | _ => []

def after (c : ModelCache) (s : CacheState) (call : CacheCall) (net : Bytes → Transfer) :
    CacheState :=
  let (fs, reply) := c.ensure net s.fs call
  ⟨fs, s.requested ++ call.wants, some (call, reply), s.served ++ c.serving fs call reply⟩

/-- A call, with what becomes of its transfers. -/
def Step (c : ModelCache) (s : CacheState) (a : CacheCall × (Bytes → Transfer))
    (t : CacheState) : Prop := t = c.after s a.1 a.2

def first (fs : ModelFiles) : CacheState := ⟨fs, [], none, []⟩

/-- A call that succeeds returns a path inside the cache, what it asked for is there, whatever
it looked for is of its repository where it is there, and no two files share a place. -/
structure Serves (c : ModelCache) (s : CacheState) : Prop where
  inside : ∀ call path, s.last = some (call, .path path) → c.Inside (c.placeOf path)
  asked : ∀ call path, s.last = some (call, .path path) → ∀ f ∈ call.asked,
    c.Inside (c.location (call.repo, f)) ∧ c.Copy s.fs (call.repo, f)
  own : ∀ call path, s.last = some (call, .path path) → ∀ w ∈ call.wants,
    (s.fs.file (c.location w)).isSome → c.Copy s.fs w
  apart : ∀ w p w' p', (w, p) ∈ s.served → (w', p') ∈ s.served → p = p' → w = w'

/-- What a call has to meet after those before it: its files stay inside the cache, lead to
places that neither another file nor its temporary file has, and what it asks for does not
pass for optional. -/
def Meets (c : ModelCache) (s : CacheState) (a : CacheCall × (Bytes → Transfer)) : Prop :=
  (∀ w ∈ a.1.wants, c.Inside (c.location w) ∧ ∀ w' ∈ s.requested ++ a.1.wants,
    (c.location w' = c.location w → w' = w) ∧ c.tmpLocation w' ≠ c.location w) ∧
  ∀ repoCode modelFile additionalFiles offline,
    a.1 = .model repoCode modelFile additionalFiles offline →
      ∀ f ∈ modelFile :: additionalFiles, isOptionalFile f = false

/-- Whatever file there is inside the cache has been downloaded for one of `known`, or has been
left under a temporary name. -/
def Kept (c : ModelCache) (fs : ModelFiles) (known : List Wanted) : Prop :=
  ∀ p body, c.Inside p → fs.file p = some body → ∃ w ∈ known,
    (c.location w = p ∧ c.original w = some body) ∨ c.tmpLocation w = p

theorem Kept.downloaded {c : ModelCache} {fs fs' : ModelFiles} (h : c.Kept fs known)
    (hw : w ∈ known) (hd : c.Downloaded w fs fs' r) : c.Kept fs' known := by
  intro p body hp hfile
  rcases hd.origin p body hfile with hold | ⟨rfl, hbody⟩ | rfl
  · exact h p body hp hold
  · exact ⟨w, hw, .inl ⟨rfl, hbody⟩⟩
  · exact ⟨w, hw, .inr rfl⟩

/-- The file of `w` is the endpoint's, where no other of `known` leads to its place. -/
theorem Kept.copy {c : ModelCache} {fs : ModelFiles} (h : c.Kept fs known)
    (hinside : c.Inside (c.location w))
    (hapart : ∀ w' ∈ known, (c.location w' = c.location w → w' = w) ∧
      c.tmpLocation w' ≠ c.location w)
    (hfile : (fs.file (c.location w)).isSome) : c.Copy fs w := by
  obtain ⟨body, hbody⟩ := Option.isSome_iff_exists.mp hfile
  obtain ⟨w', hw', hright | htmp⟩ := h _ _ hinside hbody
  · obtain ⟨hplace, horiginal⟩ := hright
    obtain rfl := (hapart w' hw').1 hplace
    exact ⟨body, hbody, horiginal⟩
  · exact absurd htmp (hapart w' hw').2

theorem fileExists_file {c : ModelCache} {fs : ModelFiles} (h : c.fileExists fs (c.destOf repo f)) :
    (fs.file (c.location (repo, f))).isSome := by
  obtain ⟨content, hcontent⟩ := FileTree.isFile_file h
  rw [location, placeOf, hcontent]
  rfl

/-- The loop only downloads what it looks for. -/
theorem ensureFiles_kept {c : ModelCache} {fs : ModelFiles} (h : c.Kept fs known)
    (hfiles : ∀ f ∈ files, (repo, f) ∈ known) :
    c.Kept (c.ensureFiles net repo offline fs files).1 known := by
  induction files generalizing fs with
  | nil => exact h
  | cons f files ih =>
    obtain ⟨hf, hrest⟩ := List.forall_mem_cons.mp hfiles
    have hd := downloadHfFile_downloaded c net fs (repo, f)
    unfold ensureFiles
    dsimp only
    split
    · exact ih h hrest
    · split
      · split
        · exact ih h hrest
        · exact h
      · split
        · rename_i hdownload
          rw [hdownload] at hd
          exact ih (h.downloaded hf hd) hrest
        · rename_i hdownload
          rw [hdownload] at hd
          split
          · exact ih (h.downloaded hf hd) hrest
          · exact h.downloaded hf hd
        · rename_i hdownload
          rw [hdownload] at hd
          exact h.downloaded hf hd

/-- The loop reaches its end by keeping, for each file, what it has found or downloaded. -/
theorem ensureFiles_step {c : ModelCache} {fs fs' : ModelFiles}
    (h : c.ensureFiles net repo offline fs (f :: files) = (fs', .path path)) :
    ∃ fs₁, c.ensureFiles net repo offline fs₁ files = (fs', .path path) ∧
      (isOptionalFile f = false → (fs₁.file (c.location (repo, f))).isSome) ∧
        ∀ l, l ≠ c.location (repo, f) → l ≠ c.tmpLocation (repo, f) → fs₁.file l = fs.file l := by
  have hd := downloadHfFile_downloaded c net fs (repo, f)
  unfold ensureFiles at h
  dsimp only at h
  split at h
  · rename_i hexists
    exact ⟨fs, h, fun _ => fileExists_file hexists, fun _ _ _ => rfl⟩
  · split at h
    · split at h
      · rename_i hoptional
        refine ⟨fs, h, fun hrequired => ?_, fun _ _ _ => rfl⟩
        cases hoptional.symm.trans hrequired
      · cases h
    · split at h
      · rename_i fs₁ hdownload
        rw [hdownload] at hd
        refine ⟨fs₁, h, fun _ => ?_, hd.kept⟩
        obtain ⟨body, hbody, -⟩ := hd.copy rfl
        rw [hbody]
        rfl
      · rename_i fs₁ hdownload
        rw [hdownload] at hd
        split at h
        · rename_i hoptional
          refine ⟨fs₁, h, fun hrequired => ?_, hd.kept⟩
          cases hoptional.symm.trans hrequired
        · cases h
      · cases h

theorem ensureFiles_path {c : ModelCache} {fs fs' : ModelFiles}
    (h : c.ensureFiles net repo offline fs files = (fs', .path path)) :
    path = c.modelDir repo := by
  induction files generalizing fs with
  | nil =>
    cases h
    rfl
  | cons f files ih =>
    obtain ⟨fs₁, hrest, -, -⟩ := ensureFiles_step h
    exact ih hrest

/-- A place that the files to come leave alone, or have to fill, stays filled. -/
theorem ensureFiles_present {c : ModelCache} {fs fs' : ModelFiles}
    (h : c.ensureFiles net repo offline fs files = (fs', .path path)) (hfile : (fs.file l).isSome)
    (htmp : ∀ f ∈ files, c.tmpLocation (repo, f) ≠ l)
    (hsame : ∀ f ∈ files, c.location (repo, f) = l → isOptionalFile f = false) :
    (fs'.file l).isSome := by
  induction files generalizing fs with
  | nil =>
    cases h
    exact hfile
  | cons f files ih =>
    obtain ⟨hf, htmp⟩ := List.forall_mem_cons.mp htmp
    obtain ⟨hoptional, hsame⟩ := List.forall_mem_cons.mp hsame
    obtain ⟨fs₁, hrest, hfound, hothers⟩ := ensureFiles_step h
    refine ih hrest ?_ htmp hsame
    by_cases hl : c.location (repo, f) = l
    · rw [← hl]
      exact hfound (hoptional hl)
    · rw [hothers l (Ne.symm hl) (Ne.symm hf)]
      exact hfile

/-- Every file that is not optional is there in the end. -/
theorem ensureFiles_required {c : ModelCache} {fs fs' : ModelFiles}
    (h : c.ensureFiles net repo offline fs files = (fs', .path path))
    (hapart : ∀ f ∈ files, ∀ g ∈ files,
      (c.location (repo, g) = c.location (repo, f) → (repo, g) = (repo, f)) ∧
        c.tmpLocation (repo, g) ≠ c.location (repo, f)) :
    ∀ f ∈ files, isOptionalFile f = false → (fs'.file (c.location (repo, f))).isSome := by
  induction files generalizing fs with
  | nil => exact fun f hf => absurd hf List.not_mem_nil
  | cons g files ih =>
    obtain ⟨fs₁, hrest, hfound, -⟩ := ensureFiles_step h
    intro f hf hrequired
    rcases List.mem_cons.mp hf with rfl | hlater
    · refine ensureFiles_present hrest (hfound hrequired) (fun k hk => ?_) fun k hk hplace => ?_
      · exact (hapart f List.mem_cons_self k (List.mem_cons_of_mem _ hk)).2
      · cases (hapart f List.mem_cons_self k (List.mem_cons_of_mem _ hk)).1 hplace
        exact hrequired
    · refine ih hrest (fun k hk k' hk' => ?_) f hlater hrequired
      exact hapart k (List.mem_cons_of_mem _ hk) k' (List.mem_cons_of_mem _ hk')

/-- What a call that succeeds comes to: a path inside the cache with what was asked for. -/
structure Ensured (c : ModelCache) (call : CacheCall) (fs : ModelFiles) (path : Bytes) : Prop where
  inside : c.Inside (c.placeOf path)
  asked : ∀ f ∈ call.asked, f ∈ call.files ∧ (fs.file (c.location (call.repo, f))).isSome

theorem ensure_kept {c : ModelCache} {fs : ModelFiles} (h : c.Kept fs known)
    (hwants : ∀ w ∈ call.wants, w ∈ known) : c.Kept (c.ensure net fs call).1 known := by
  have hmkdirs (path : Bytes) : c.Kept (c.mkdirs fs path).1 known := by
    intro p body hp hfile
    exact h p body hp (file_mkdirs c fs path p ▸ hfile)
  cases call with
  | gguf repo filename offline =>
    unfold ensure ensureGgufModel
    dsimp only
    split
    · exact h
    · rename_i hvalid
      have hw : (repo, filename) ∈ known := by
        refine hwants _ (List.mem_map.mpr ⟨filename, ?_, rfl⟩)
        rw [CacheCall.files, if_neg hvalid]
        exact List.mem_singleton_self _
      have hd := downloadHfFile_downloaded c net (c.mkdirs fs (c.modelDir repo)).1 (repo, filename)
      split
      · exact hmkdirs _
      · split
        · exact hmkdirs _
        · split
          all_goals
            rename_i hdownload
            rw [hdownload] at hd
            exact (hmkdirs _).downloaded hw hd
  | model repoCode modelFile additionalFiles offline =>
    refine ensureFiles_kept (hmkdirs _) fun f hf => ?_
    exact hwants _ (List.mem_map.mpr ⟨f, hf, rfl⟩)

theorem ensure_path {c : ModelCache} {fs fs' : ModelFiles}
    (h : c.ensure net fs call = (fs', .path path))
    (hplaces : ∀ w ∈ call.wants, c.Inside (c.location w) ∧ ∀ w' ∈ call.wants,
      (c.location w' = c.location w → w' = w) ∧ c.tmpLocation w' ≠ c.location w)
    (hrequired : ∀ repoCode modelFile additionalFiles offline,
      call = .model repoCode modelFile additionalFiles offline →
        ∀ f ∈ modelFile :: additionalFiles, isOptionalFile f = false) :
    c.Ensured call fs' path := by
  cases call with
  | gguf repo filename offline =>
    unfold ensure ensureGgufModel at h
    dsimp only at h
    split at h
    · cases h
    · rename_i hvalid
      have hfiles : (CacheCall.gguf repo filename offline).files = [filename] := if_neg hvalid
      have hw : (repo, filename) ∈ (CacheCall.gguf repo filename offline).wants := by
        rw [CacheCall.wants, hfiles]
        exact List.mem_singleton_self _
      have hinside := (hplaces _ hw).1
      have hensured (hfile : (fs'.file (c.location (repo, filename))).isSome) :
          c.Ensured (.gguf repo filename offline) fs' (c.destOf repo filename) := by
        refine ⟨hinside, fun f hf => ?_⟩
        cases List.mem_singleton.mp hf
        exact ⟨hfiles ▸ List.mem_singleton_self _, hfile⟩
      have hd := downloadHfFile_downloaded c net (c.mkdirs fs (c.modelDir repo)).1 (repo, filename)
      split at h
      · rename_i hexists
        cases h
        exact hensured (fileExists_file hexists)
      · split at h
        · cases h
        · split at h
          · rename_i hdownload
            rw [hdownload] at hd
            cases h
            obtain ⟨body, hbody, -⟩ := hd.copy rfl
            refine hensured ?_
            rw [hbody]
            rfl
          · cases h
          · cases h
  | model repoCode modelFile additionalFiles offline =>
    have hpath := ensureFiles_path h
    have hall := ensureFiles_required h fun f hf g hg => by
      exact (hplaces _ (List.mem_map.mpr ⟨f, hf, rfl⟩)).2 _ (List.mem_map.mpr ⟨g, hg, rfl⟩)
    constructor
    case inside =>
      rw [hpath]
      exact c.modelDir_inside repoCode
    case asked =>
      intro f hf
      have hmem : f ∈ filesOf modelFile additionalFiles := by
        rcases List.mem_cons.mp hf with rfl | hadditional
        · exact List.mem_cons_self
        · exact List.mem_append_right _ hadditional
      exact ⟨hmem, hall f hmem (hrequired _ _ _ _ rfl f hf)⟩

-- ---------------------------------------------------------------------------
-- Runs
-- ---------------------------------------------------------------------------

/-- What the calls so far have left. -/
structure Coherent (c : ModelCache) (s : CacheState) : Prop where
  kept : c.Kept s.fs s.requested
  served : ∀ w p, (w, p) ∈ s.served → w ∈ s.requested ∧ p = c.location w
  serves : c.Serves s

theorem mem_serving {c : ModelCache} {fs : ModelFiles}
    (h : (w, p) ∈ c.serving fs call reply) : w ∈ call.wants ∧ p = c.location w := by
  cases reply with
  | path path =>
    obtain ⟨w', hw', heq⟩ := List.mem_map.mp h
    cases heq
    exact ⟨(List.mem_filter.mp hw').1, rfl⟩
  | error what => cases h
  | invalidArgument => cases h
  | killed => cases h

theorem Coherent.step {c : ModelCache} {s t : CacheState} (h : c.Coherent s)
    (hmeets : c.Meets s a) (hstep : c.Step s a t) : c.Coherent t := by
  obtain ⟨call, net⟩ := a
  obtain ⟨hplaces, hrequired⟩ := hmeets
  cases hensure : c.ensure net s.fs call with
  | mk fs reply =>
  rw [Step, after, hensure] at hstep
  subst hstep
  have hkept : c.Kept fs (s.requested ++ call.wants) := by
    have hbefore : c.Kept s.fs (s.requested ++ call.wants) := fun p body hp hfile =>
      (h.kept p body hp hfile).imp fun w hw => ⟨List.mem_append_left _ hw.1, hw.2⟩
    have hafter : c.Kept (c.ensure net s.fs call).1 (s.requested ++ call.wants) :=
      ensure_kept hbefore fun w hw => List.mem_append_right _ hw
    rwa [hensure] at hafter
  have hcopy : ∀ w ∈ call.wants, (fs.file (c.location w)).isSome → c.Copy fs w :=
    fun w hw hfile => hkept.copy (hplaces w hw).1 (hplaces w hw).2 hfile
  have hensured (path : Bytes) (hreply : reply = .path path) : c.Ensured call fs path := by
    subst hreply
    refine ensure_path hensure (fun w hw => ⟨(hplaces w hw).1, fun w' hw' => ?_⟩) hrequired
    exact (hplaces w hw).2 w' (List.mem_append_right _ hw')
  have hserved : ∀ w p, (w, p) ∈ s.served ++ c.serving fs call reply →
      w ∈ s.requested ++ call.wants ∧ p = c.location w := by
    intro w p hmem
    rcases List.mem_append.mp hmem with hold | hnew
    · exact ⟨List.mem_append_left _ (h.served w p hold).1, (h.served w p hold).2⟩
    · exact ⟨List.mem_append_right _ (mem_serving hnew).1, (mem_serving hnew).2⟩
  refine ⟨hkept, hserved, ?_⟩
  constructor
  case inside =>
    rintro call' path hlast
    cases hlast
    exact (hensured path rfl).inside
  case asked =>
    rintro call' path hlast f hf
    cases hlast
    obtain ⟨hmem, hfile⟩ := (hensured path rfl).asked f hf
    have hw : (call.repo, f) ∈ call.wants := List.mem_map.mpr ⟨f, hmem, rfl⟩
    exact ⟨(hplaces _ hw).1, hcopy _ hw hfile⟩
  case own =>
    rintro call' path hlast w hw
    cases hlast
    exact hcopy w hw
  case apart =>
    rintro w p w' p' hmem hmem' hplace
    obtain ⟨hknown, hp⟩ := hserved w p hmem
    obtain ⟨hknown', hp'⟩ := hserved w' p' hmem'
    have hsame : c.location w = c.location w' := by rw [← hp, ← hp', hplace]
    rcases List.mem_append.mp hmem with hold | hnew
    · rcases List.mem_append.mp hmem' with hold' | hnew'
      · exact h.serves.apart w p w' p' hold hold' hplace
      · exact ((hplaces w' (mem_serving hnew').1).2 w hknown).1 hsame
    · exact (((hplaces w (mem_serving hnew).1).2 w' hknown').1 hsame.symm).symm

theorem coherent_first {c : ModelCache} {fs : ModelFiles}
    (hempty : ∀ p, c.Inside p → fs.file p = none) : c.Coherent (first fs) := by
  constructor
  case kept =>
    intro p body hp hfile
    rw [first, hempty p hp] at hfile
    cases hfile
  case served => exact fun w p hmem => absurd hmem List.not_mem_nil
  case serves =>
    constructor
    case inside => exact fun call path hlast => nomatch hlast
    case asked => exact fun call path hlast => nomatch hlast
    case own => exact fun call path hlast => nomatch hlast
    case apart => exact fun w p w' p' hmem => absurd hmem List.not_mem_nil

/-- From a cache without files, a run whose calls keep to places of their own is served its
own files. -/
theorem serves_of_meets (c : ModelCache) (fs : ModelFiles)
    (hempty : ∀ p, c.Inside p → fs.file p = none)
    (acts : List (CacheCall × (Bytes → Transfer)))
    (hmeets : EveryStep c.Step (first fs) acts c.Meets) :
    Always c.Step (first fs) acts c.Serves := by
  have hcoherent : Always c.Step (first fs) acts c.Coherent :=
    always_of_everyStep (coherent_first hempty) (fun _ _ _ h hmeets hstep => h.step hmeets hstep)
      hmeets
  exact fun done s hpre hrun => (hcoherent done s hpre hrun).serves

/-- An endpoint whose files hold their own URLs. -/
def sample : ModelCache := ⟨[], ascii "/c", List.cons_ne_nil _ _, ascii "h", some⟩

def fetch (repo filename : String) : CacheCall × (Bytes → Transfer) :=
  (.gguf (ascii repo) (ascii filename) false, fun _ => .delivered)

/-- A call leads to one state only. -/
theorem everyStep_after {c : ModelCache} {s : CacheState} {a : CacheCall × (Bytes → Transfer)}
    (hmeets : c.Meets s a) (hrest : EveryStep c.Step (c.after s a.1 a.2) acts c.Meets) :
    EveryStep c.Step s (a :: acts) c.Meets := by
  refine everyStep_cons (fun _ _ => hmeets) ?_
  rintro _ rfl
  exact hrest

theorem serves_of_meets_sample : Always sample.Step (first ⟨[]⟩)
    [fetch "a/b" "x", fetch "a/b" "y", fetch "c" "x"] sample.Serves := by
  refine serves_of_meets sample ⟨[]⟩ (fun _ _ => rfl) _ ?_
  refine everyStep_after ⟨by decide, nofun⟩ ?_
  refine everyStep_after ⟨by decide +kernel, nofun⟩ ?_
  refine everyStep_after ⟨by decide +kernel, nofun⟩ ?_
  exact everyStep_nil

/-- The file of `a/b` is served for `a-b`, whose own has never been asked for. -/
theorem other_repository_served : ∃ s, Run sample.Step (first ⟨[]⟩)
      [fetch "a/b" "x", fetch "a-b" "x"] s ∧
    s.last = some ((fetch "a-b" "x").1, .path (ascii "/c/models--a-b/x")) ∧
      s.fs.file (sample.location (ascii "a-b", ascii "x")) =
        sample.original (ascii "a/b", ascii "x") ∧ ¬sample.Serves s := by
  have hrun : Run sample.Step (first ⟨[]⟩) [fetch "a/b" "x", fetch "a-b" "x"]
      (sample.after (sample.after (first ⟨[]⟩) (fetch "a/b" "x").1 (fetch "a/b" "x").2)
        (fetch "a-b" "x").1 (fetch "a-b" "x").2) := (Run.start.next rfl).next rfl
  have hfile : (sample.after (sample.after (first ⟨[]⟩) (fetch "a/b" "x").1 (fetch "a/b" "x").2)
      (fetch "a-b" "x").1 (fetch "a-b" "x").2).fs.file
        (sample.location (ascii "a-b", ascii "x")) =
      sample.original (ascii "a/b", ascii "x") := by decide +kernel
  have hlast : (sample.after (sample.after (first ⟨[]⟩) (fetch "a/b" "x").1 (fetch "a/b" "x").2)
      (fetch "a-b" "x").1 (fetch "a-b" "x").2).last =
        some ((fetch "a-b" "x").1, .path (ascii "/c/models--a-b/x")) := by decide +kernel
  refine ⟨_, hrun, hlast, hfile, fun hserves => ?_⟩
  obtain ⟨-, body, hbody, horiginal⟩ := hserves.asked _ _ hlast (ascii "x")
    (List.mem_singleton_self _)
  have hown : sample.original (ascii "a/b", ascii "x") = sample.original (ascii "a-b", ascii "x") := by
    rw [← hfile]
    exact hbody.trans horiginal.symm
  exact absurd hown (by decide)

end ModelCache

end LibEmbedding
