/-
Building a site's cache from its document tree (`cache.rs`, `build_cache` and `walk`), and the
signatures the watcher compares (`dir_signature`, `file_signature`, `tls_signature`).
-/
import BareServer.Cache.Entry
import BareServer.Lib.Utf8

namespace BareServer

open BareServer.Lib

/-! ## Document trees -/

/-- What `stat` tells of a file: its size and its modification time in nanoseconds, when it has one. -/
structure FileMeta where
  size : Nat
  mtime : Option Nat
  deriving DecidableEq, Repr

/-- What a path names. A file that cannot be read has no data, a directory that cannot be read no
entries; `gone` is an entry whose `lstat` fails. Entry names are raw bytes. -/
inductive Node where
  | file (info : FileMeta) (data : Option Bytes)
  | dir (entries : Option (List (Bytes × Node)))
  | symlink
  | other
  | gone

/-- `Path::is_dir` of what a path names. -/
def Node.isDir : Node → Bool
  | .dir _ => true
  | _ => false

/-- Skipped names: those that start with a dot, except `.well-known`. -/
def isHidden (name : Str) : Bool := (str ".").isPrefixOf name && name != str ".well-known"

/-! ## The walk -/

/-- The compressors, and which snapshot directories and files can be written. -/
structure BuildEnv where
  compressors : Compressors
  mkdir : Path → Bool
  writes : Path → Bool

/-- What a walk carries: the cache so far, the bytes charged, the snapshot so far. -/
structure Building where
  map : Cache
  total : Nat
  files : Files

/-- The entry of one file, in the backend of the build. -/
def makeEntry (env : BuildEnv) (p : Policy) (buildDir : Option Path) (url : Str) (data : Bytes) (files : Files) :
    Option Cached × Files :=
  match buildDir with
  | none => (some (.mem (makeCached env.compressors url (mimeFor url) data p)), files)
  | some bd =>
    match makeDiskEntry env.compressors env.writes url (mimeFor url) data p bd files with
    | (some e, files') => (some (.disk e), files')
    | (none, files') => (none, files')

/-- One regular file of the walk; `none` when the memory budget is exceeded. -/
def walkFile (env : BuildEnv) (p : Policy) (buildDir : Option Path) (url : Str) (info : FileMeta)
    (data : Option Bytes) (b : Building) : Option Building :=
  if info.size > p.t.maxFileSize then some b
  else if buildDir.isNone && b.total + info.size > p.t.maxTotalBytes then none
  else
    match data with
    | none => some b
    | some bytes =>
      match makeEntry env p buildDir url bytes b.files with
      | (none, files) => some { b with files }
      | (some cached, files) =>
        if buildDir.isNone && b.total + cached.retainedBytes > p.t.maxTotalBytes then none
        else some { map := b.map.insert url cached, total := b.total + cached.retainedBytes, files }

/-- Load a directory; `none` when it or a directory below it cannot be read, or the budget is
exceeded. -/
def walk (env : BuildEnv) (p : Policy) (buildDir : Option Path) (pre : Str) : Node → Building → Option Building
  | .dir (some entries), b => go pre entries b
  | _, _ => none
where
  go (pre : Str) : List (Bytes × Node) → Building → Option Building
  | [], b => some b
  | (raw, node) :: rest, b =>
    let name := fromUtf8Lossy raw
    if isHidden name then go pre rest b
    else
      let url := pre ++ str "/" ++ name
      match node with
      | .file info data =>
        match walkFile env p buildDir url info data b with
        | none => none
        | some b' => go pre rest b'
      | .dir entries =>
        match walk env p buildDir url (.dir entries) b with
        | none => none
        | some b' => go pre rest b'
      | _ => go pre rest b

/-- The snapshot directory of a build: its number under `disk_cache`. -/
def buildDirPath (p : Policy) (seq : Nat) : Path := join p.diskCache (str "build-" ++ dec seq)

/-- A fresh cache for a root, charged to `total`. In disk mode it takes the build number `seq`; the
number after it is the third component. -/
def buildCache (env : BuildEnv) (p : Policy) (seq : Nat) (root : Node) (total : Nat) :
    Option (SiteCache × Nat) × Nat :=
  match root with
  | .dir (some _) =>
    match p.storage with
    | .memory =>
      match walk env p none [] root ⟨∅, total, ∅⟩ with
      | none => (none, seq)
      | some b => (some (⟨b.map, none⟩, b.total), seq)
    | .disk =>
      let dir := buildDirPath p seq
      if env.mkdir dir then
        match walk env p (some dir) [] root ⟨∅, total, ∅⟩ with
        | none => (none, seq + 1)
        | some b => (some (⟨b.map, some ⟨dir, b.files⟩⟩, b.total), seq + 1)
      else (none, seq + 1)
  | _ => (none, seq)

/-! ## Signatures -/

/-- Size and modification time folded into a hash; an unknown time counts as 0. -/
def foldMeta (h : UInt64) (info : FileMeta) : UInt64 :=
  fnvStep (fnvStep h info.size.toUInt64) (info.mtime.getD 0).toUInt64

def dirSignature : Node → UInt64 → UInt64
  | .dir (some entries), h => ((go entries).insertionSort fun a b => a.1 ≤ b.1).foldl (fun h e => e.2 h) h
  | _, h => h
where
  /-- What each visible entry folds into the hash, by its raw name. -/
  go : List (Bytes × Node) → List (Bytes × (UInt64 → UInt64))
  | [] => []
  | (raw, node) :: rest =>
    let name := fromUtf8Lossy raw
    let fold : UInt64 → UInt64 := fun h =>
      let named := name.foldl (fun h b => fnvStep h b.toUInt64) h
      match node with
      | .file info _ => foldMeta named info
      | .dir entries => dirSignature (.dir entries) named
      | .other => named
      | _ => h
    if isHidden name then go rest else (raw, fold) :: go rest

def treeSignature (root : Node) : UInt64 := dirSignature root fnvBasis

def fileSignature (info : Option FileMeta) : UInt64 :=
  match info with
  | some i => foldMeta fnvBasis i
  | none => fnvBasis

/-- Signatures of several files folded in order. -/
def tlsSignature (files : List (Option FileMeta)) : UInt64 :=
  files.foldl (fun h f => fnvStep h (fileSignature f)) fnvBasis

end BareServer
