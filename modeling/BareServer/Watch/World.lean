/-
What the process reads while files change under it: the clock, the files and directories, the
sockets. Each read is one look at the world, and the world may change between two of them.
-/
import BareServer.Lib.Observe
import BareServer.Config.Parse
import BareServer.Cache.Site

namespace BareServer

open BareServer.Lib

/-! ## The world -/

/-- An iteration order of the hash maps keyed by text. -/
structure HashOrder where
  list : List Str → List Str
  perm : ∀ keys, (list keys).Perm keys

/-- The machine at one moment. An `Except` holds the operating system's error text. -/
structure World where
  /-- `Instant::now`, in nanoseconds. -/
  now : Nat
  /-- `fs::metadata`, which follows symlinks. -/
  info : Str → Option FileMeta
  /-- `fs::read_to_string`. -/
  text : Str → Except Str Str
  /-- `fs::File::open`, with what reading the file gives. -/
  openFile : Str → Except Str Bytes
  canonicalize : Str → Except Str Path
  /-- No path of the file system holds a NUL. -/
  noNul : ∀ r p, canonicalize r = .ok p → (0 : UInt8) ∉ p
  /-- The file or tree under a path, as a walk that starts now sees it. -/
  node : Path → Node
  /-- Which directories can be created and which snapshot files written. -/
  mkdir : Path → Bool
  writes : Path → Bool
  /-- `TcpListener::bind`. -/
  bind : Str → Except Str Unit
  order : HashOrder

theorem error_ne_ok {ε α : Type} {e : ε} {a : α} (h : Except.error e = .ok a) : False := by cases h

/-- A machine without files. -/
def World.empty : World where
  now := 0
  info _ := none
  text _ := .error []
  openFile _ := .error []
  canonicalize _ := .error []
  noNul _ _ h := (error_ne_ok h).elim
  node _ := .other
  mkdir _ := true
  writes _ := true
  bind _ := .ok ()
  order := ⟨id, fun _ => .rfl⟩

/-- A machine with one document root. -/
def World.rootedAt (tree : Node) : World :=
  { World.empty with
    canonicalize := fun _ => .ok (str "/www")
    noNul := fun _ _ hp => by cases hp; decide
    node := fun _ => tree }

/-- A program over the world that publishes values of `E`. -/
abbrev Look (E : Type) := Obs World E

section

variable {E : Type}

/-! ## Signatures -/

/-- `file_signature`. -/
def fileSignatureOf (path : Str) : Look E UInt64 := .view fun w => fileSignature (w.info path)

/-- `tls_signature`: one look for each file. -/
def tlsSignatureOf (paths : List Str) : Look E UInt64 := do
  let infos ← Obs.each (fun p => .view fun w => w.info p) paths
  pure (tlsSignature infos)

/-- `tree_signature`. -/
def treeSignatureOf (root : Path) : Look E UInt64 := .view fun w => treeSignature (w.node root)

/-- `Path::display`. -/
def display (p : Path) : Str := fromUtf8Lossy p

/-! ## The config file -/

/-- A config with the text it was parsed from. -/
structure Loaded where
  text : Str
  cfg : Config
  parsed : parseConfig text = .ok cfg

/-- Parse a text, keeping it. -/
def Loaded.ofText (text : Str) : Except Str Loaded :=
  match h : parseConfig text with
  | .error e => .error e
  | .ok cfg => .ok ⟨text, cfg, h⟩

/-- What loading the config at one moment gives. -/
def World.load (w : World) (path : Str) : Except Str Loaded :=
  match w.text path with
  | .error e => .error (str "cannot read " ++ path ++ str ": " ++ e)
  | .ok text => Loaded.ofText text

def loadConfig (path : Str) : Look E (Except Str Loaded) := .view fun w => w.load path

/-! ## Roots -/

/-- `fs::canonicalize`, or the path as it is written when that fails. -/
def World.resolve (w : World) (r : Str) : Path := (w.canonicalize r).toOption.getD r

def resolveRoot (r : Str) : Look E Path := .view fun w => w.resolve r

/-- The configured roots, in order. -/
def Config.roots (cfg : Config) : List Str := cfg.sites.filterMap (·.root)

/-- What each configured root currently resolves to. -/
def rootLinks (cfg : Config) : Look E (List (Str × Path)) :=
  Obs.each (fun r => do let p ← resolveRoot r; pure (r, p)) cfg.roots

/-- `root_links` of the config file as it currently reads. -/
def rootLinksOf (path : Str) : Look E (Option (List (Str × Path))) := do
  match ← loadConfig path with
  | .error _ => pure none
  | .ok c => return some (← rootLinks c.cfg)

/-! ## Samples -/

/-- Every cert and key file the config names, in config order. -/
def tlsPaths (cfg : Config) : List Str := cfg.sites.flatMap fun s => [s.cert, s.key]

/-- What is sampled before a runtime is built. -/
structure Sampled where
  config : UInt64
  tlsFiles : List Str
  tls : UInt64
  trees : Map Str UInt64
  links : List (Str × Path)

/-- Hash each distinct tree once. -/
def hashTree (sigs : Map Str UInt64) (root : Path) : Look E (Map Str UInt64) :=
  if (sigs.lookup (display root)).isSome then pure sigs
  else do return sigs.insert (display root) (← treeSignatureOf root)

/-- One configured root's tree, under its canonical form. -/
def sampleTree (trees : Map Str UInt64) (r : Str) : Look E (Map Str UInt64) := do
  hashTree trees (← resolveRoot r)

def sample (path : Str) (cfg : Config) : Look E Sampled := do
  let config ← fileSignatureOf path
  let tls ← tlsSignatureOf (tlsPaths cfg)
  let trees ← Obs.fold sampleTree ∅ cfg.roots
  let links ← rootLinks cfg
  return { config, tlsFiles := tlsPaths cfg, tls, trees, links }

end
end BareServer
