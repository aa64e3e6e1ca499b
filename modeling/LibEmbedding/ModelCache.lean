import LibEmbedding.Foundation.FileTree
import LibEmbedding.Types

/-!
# The cache of model files

`download_hf_file`, `ensure_model` and `lembed_ensure_gguf_model` over a file tree: one
directory for each repository, and a file is fetched when it is not there.
-/

namespace LibEmbedding

open Foundation

/-- The name between two slashes. -/
def segmentOf (part : Bytes) : Segment Bytes :=
  if part = [] ∨ part = ascii "." then .here
  else if part = ascii ".." then .up
  else .name part

def parts : Bytes → List Bytes
  | [] => [[]]
  | c :: rest =>
    if c = 47 then [] :: parts rest
    else match parts rest with
      | part :: others => (c :: part) :: others
      | [] => [[c]]

def segments (path : Bytes) : List (Segment Bytes) := (parts path).map segmentOf

/-- The path up to its last slash. -/
def directoryOf (path : Bytes) : Option Bytes :=
  if 47 ∈ path then some ((path.reverse.dropWhile (· ≠ 47)).drop 1).reverse else none

/-- `repo_to_dirname` -/
def repoToDirname (repoCode : Bytes) : Bytes := repoCode.map fun c => if c = 47 then 45 else c

/-- `is_optional_file` -/
def isOptionalFile (filename : Bytes) : Bool :=
  filename = ascii "tokenizer.json" || filename = ascii "tokenizer_config.json" ||
    filename = ascii "special_tokens_map.json" || filename = ascii "config.json"

/-- What becomes of a request to a URL: the process is gone before the body is complete, or
the body has come, or `curl_easy_perform` fails. -/
inductive Transfer
  | cut (written : Nat)
  | delivered
  | failed
  deriving DecidableEq

/-- What becomes of a download. -/
inductive Download
  | ok
  | failed
  | killed
  deriving DecidableEq

/-- What a call comes to. -/
inductive CacheReply
  | path (path : Bytes)
  | error (what : Bytes)
  | invalidArgument
  | killed
  deriving DecidableEq

/-- The calls, the progress display apart. -/
inductive CacheCall
  | gguf (repo filename : Bytes) (offline : Bool)
  | model (repoCode modelFile : Bytes) (additionalFiles : List Bytes) (offline : Bool)
  deriving DecidableEq

abbrev ModelFiles := FileTree Bytes Bytes

/-- The directory that all calls share, and what the endpoint has under its URLs. -/
structure ModelCache where
  cwd : Place Bytes
  cacheDir : Bytes
  cacheDir_ne : cacheDir ≠ []
  endpoint : Bytes
  serves : Bytes → Option Bytes

namespace ModelCache

/-- Where the resolution of a path begins. -/
def start (c : ModelCache) (path : Bytes) : Place Bytes :=
  if path.head? = some 47 then [] else c.cwd

/-- `file_exists` -/
def fileExists (c : ModelCache) (fs : ModelFiles) (path : Bytes) : Bool :=
  fs.isFile (c.start path) (segments path)

/-- `mkdirs`: the loop over the rest of the path, behind `current`. -/
def mkdirsFrom (c : ModelCache) (fs : ModelFiles) (current : Bytes) : Bytes → ModelFiles × Bool
  | [] => (fs, true)
  | ch :: rest =>
    let current := current ++ [ch]
    if ch = 47 ∨ rest = [] then
      if fs.present (c.start current) (segments current) then c.mkdirsFrom fs current rest
      else match fs.mkdir (c.start current) (segments current) with
        | some fs => c.mkdirsFrom fs current rest
        | none => (fs, false)
    else c.mkdirsFrom fs current rest

def mkdirs (c : ModelCache) (fs : ModelFiles) (path : Bytes) : ModelFiles × Bool :=
  c.mkdirsFrom fs [] path

def url (c : ModelCache) (repo filename : Bytes) : Bytes :=
  c.endpoint ++ ascii "/" ++ repo ++ ascii "/resolve/main/" ++ filename

/-- `remove` and `rename` on strings. -/
def removePath (c : ModelCache) (fs : ModelFiles) (path : Bytes) : ModelFiles :=
  fs.remove (c.start path) (segments path)

/-- The file under its temporary name, and the renaming. -/
def install (c : ModelCache) (fs : ModelFiles) (tmpPath destPath : Bytes) :
    ModelFiles × Download :=
  let fs := c.removePath fs destPath
  match fs.rename (c.start destPath) (segments tmpPath) (segments destPath) with
  | some fs => (fs, .ok)
  | none => (c.removePath fs tmpPath, .failed)

/-- The directory of the destination. -/
def makeParent (c : ModelCache) (fs : ModelFiles) (destPath : Bytes) : ModelFiles :=
  match directoryOf destPath with
  | some directory => (c.mkdirs fs directory).1
  | none => fs

/-- `download_hf_file` -/
def downloadHfFile (c : ModelCache) (net : Bytes → Transfer) (fs : ModelFiles)
    (repo filename destPath : Bytes) : ModelFiles × Download :=
  let url := c.url repo filename
  let fs := c.makeParent fs destPath
  let tmpPath := destPath ++ ascii ".tmp"
  match fs.create (c.start tmpPath) (segments tmpPath) [] with
  | none => (fs, .failed)
  | some (fs, fp) =>
    match c.serves url, net url with
    | some body, .cut written => (fs.put fp (.file (body.take written)), .killed)
    | some body, .delivered => c.install (fs.put fp (.file body)) tmpPath destPath
    | _, _ => (c.removePath fs tmpPath, .failed)

def modelDir (c : ModelCache) (repo : Bytes) : Bytes :=
  c.cacheDir ++ ascii "/" ++ (ascii "models--" ++ repoToDirname repo)

def destOf (c : ModelCache) (repo filename : Bytes) : Bytes :=
  c.modelDir repo ++ ascii "/" ++ filename

/-- `lembed_ensure_gguf_model` -/
def ensureGgufModel (c : ModelCache) (net : Bytes → Transfer) (fs : ModelFiles)
    (repo filename : Bytes) (offline : Bool) : ModelFiles × CacheReply :=
  if repo = [] ∨ filename = [] then (fs, .invalidArgument)
  else
    let fs := (c.mkdirs fs (c.modelDir repo)).1
    let dest := c.destOf repo filename
    if c.fileExists fs dest then (fs, .path dest)
    else if offline then (fs, .error (ascii "GGUF model not in cache (offline mode): " ++ dest))
    else match c.downloadHfFile net fs repo filename dest with
      | (fs, .ok) => (fs, .path dest)
      | (fs, .failed) => (fs, .error
          (ascii "Failed to download GGUF model: " ++ repo ++ ascii "/" ++ filename))
      | (fs, .killed) => (fs, .killed)

/-- The loop of `ensure_model`. -/
def ensureFiles (c : ModelCache) (net : Bytes → Transfer) (repoCode : Bytes) (offline : Bool) :
    ModelFiles → List Bytes → ModelFiles × CacheReply
  | fs, [] => (fs, .path (c.modelDir repoCode))
  | fs, f :: files =>
    let dest := c.destOf repoCode f
    if c.fileExists fs dest then c.ensureFiles net repoCode offline fs files
    else if offline then
      if isOptionalFile f then c.ensureFiles net repoCode offline fs files
      else (fs, .error (ascii "Model file not in cache (offline mode): " ++ dest))
    else match c.downloadHfFile net fs repoCode f dest with
      | (fs, .ok) => c.ensureFiles net repoCode offline fs files
      | (fs, .failed) =>
        if isOptionalFile f then c.ensureFiles net repoCode offline fs files
        else (fs, .error (ascii "Failed to download: " ++ repoCode ++ ascii "/" ++ f))
      | (fs, .killed) => (fs, .killed)

def filesOf (modelFile : Bytes) (additionalFiles : List Bytes) : List Bytes :=
  [modelFile, ascii "tokenizer.json", ascii "config.json", ascii "tokenizer_config.json",
    ascii "special_tokens_map.json"] ++ additionalFiles

/-- `ensure_model` -/
def ensureModel (c : ModelCache) (net : Bytes → Transfer) (fs : ModelFiles)
    (repoCode modelFile : Bytes) (additionalFiles : List Bytes) (offline : Bool) :
    ModelFiles × CacheReply :=
  c.ensureFiles net repoCode offline (c.mkdirs fs (c.modelDir repoCode)).1
    (filesOf modelFile additionalFiles)

def ensure (c : ModelCache) (net : Bytes → Transfer) (fs : ModelFiles) :
    CacheCall → ModelFiles × CacheReply
  | .gguf repo filename offline => c.ensureGgufModel net fs repo filename offline
  | .model repoCode modelFile additionalFiles offline =>
    c.ensureModel net fs repoCode modelFile additionalFiles offline

end ModelCache

end LibEmbedding
