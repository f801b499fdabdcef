/-
Cache entries (`cache.rs`): the prebuilt responses of one file, held in memory or with their bodies
in a snapshot on disk. The two compressors are third-party code and enter as parameters.
-/
import BareServer.Cache.Policy

namespace BareServer

open BareServer.Lib

/-! ## Variants -/

def fnvStep (h x : UInt64) : UInt64 := (h ^^^ x) * 0x100000001b3

def fnvBasis : UInt64 := 0xcbf29ce484222325

/-- Strong validator of an encoded body: its length and FNV-1a hash, in hex. -/
def etagFor (body : Bytes) : Str :=
  let h := body.foldl (fun h b => fnvStep h b.toUInt64) fnvBasis
  hex body.length ++ str "-" ++ hex h.toNat

def isCompressible (mime : Str) : Bool :=
  (str "text/").isPrefixOf mime || containsStr mime (str "javascript") || containsStr mime (str "json") ||
    containsStr mime (str "xml") || containsStr mime (str "svg") || containsStr mime (str "wasm")

/-- The compressors: data and level to encoded body. -/
structure Compressors where
  gzip : Bytes → Nat → Bytes
  brotli : Bytes → Nat → Bytes

def encodingLine : Option Str → Str
  | some enc => str "Content-Encoding: " ++ enc ++ str "\r\n"
  | none => []

def buildHeaderFront (mime : Str) (bodyLen : Nat) (etag : Str) (encoding : Option Str) (vary : Bool)
    (cacheControl : Str) : Str :=
  str "HTTP/1.1 200 OK\r\nContent-Type: " ++ mime ++ str "\r\nContent-Length: " ++ dec bodyLen ++
  str "\r\nETag: \"" ++ etag ++ str "\"\r\n" ++
  encodingLine encoding ++
  (if vary then str "Vary: Accept-Encoding\r\n" else []) ++
  str "Cache-Control: " ++ cacheControl ++ str "\r\n"

/-- The 200 header of a body, in keep-alive form, up to and including the blank line. -/
def buildHeader (mime : Str) (bodyLen : Nat) (etag : Str) (encoding : Option Str) (vary : Bool)
    (cacheControl securityHeaders : Str) : Str :=
  buildHeaderFront mime bodyLen etag encoding vary cacheControl ++
  str "Connection: keep-alive" ++ (str "\r\n" ++ securityHeaders ++ str "\r\n")

/-- One complete keep-alive response; `headerLen` marks where the body starts. -/
structure Variant where
  fullKa : Bytes
  headerLen : Nat
  etag : Str
  encoding : Option Str

def buildVariant (mime : Str) (body : Bytes) (encoding : Option Str) (vary : Bool)
    (cacheControl securityHeaders : Str) : Variant :=
  let etag := etagFor body
  let h := buildHeader mime body.length etag encoding vary cacheControl securityHeaders
  { fullKa := h ++ body, headerLen := h.length, etag, encoding }

/-- The gzip and brotli bodies of a file, each only when it is smaller than the source. -/
def compressVariants (c : Compressors) (mime : Str) (data : Bytes) (p : Policy) : Option Bytes × Option Bytes :=
  if !(p.t.compression && isCompressible mime && decide (p.t.minCompressBytes ≤ data.length)) then (none, none)
  else
    let gz := if data.length ≤ p.t.maxGzipBytes then some (c.gzip data p.t.gzipLevel) else none
    let br := if data.length ≤ p.t.maxBrotliBytes then some (c.brotli data p.t.brotliQuality) else none
    (gz.filter fun g => decide (g.length < data.length), br.filter fun b => decide (b.length < data.length))

/-! ## Entries in memory -/

structure MemEntry where
  identity : Variant
  gzip : Option Variant
  br : Option Variant
  cacheControl : Str
  vary : Bool

def makeCached (c : Compressors) (url mime : Str) (data : Bytes) (p : Policy) : MemEntry :=
  let cc := p.cacheControlFor url
  let (gz, brb) := compressVariants c mime data p
  let vary := gz.isSome || brb.isSome
  let sh := p.securityHeaders
  { identity := buildVariant mime data none vary cc sh
    gzip := gz.map fun g => buildVariant mime g (some (str "gzip")) true cc sh
    br := brb.map fun b => buildVariant mime b (some (str "br")) true cc sh
    cacheControl := cc
    vary }

/-! ## Entries on disk -/

/-- One variant whose body lives in the snapshot; only its header is in memory. -/
structure DiskVariant where
  headerKa : Bytes
  path : Path
  len : Nat
  etag : Str
  encoding : Option Str

structure DiskEntry where
  identity : DiskVariant
  gzip : Option DiskVariant
  br : Option DiskVariant
  cacheControl : Str
  vary : Bool

/-- `Path::join`: an absolute `rest` replaces, otherwise one separator stands between. -/
def join (base rest : Path) : Path :=
  if (str "/").isPrefixOf rest then rest
  else if base.isEmpty || (str "/").isSuffixOf base then base ++ rest
  else base ++ str "/" ++ rest

abbrev Files := Map Path Bytes

/-- Where the variant of `url` under one encoding namespace lives. -/
def snapshotPath (buildDir : Path) (ns : Str) (url : Str) : Path :=
  join (join buildDir ns) (url.dropWhile (· == 47))

/-- Write one variant's body; `none` when the file system refuses. A write replaces what the path
held. -/
def writeVariant (writes : Path → Bool) (mime : Str) (vary : Bool) (cc sh : Str) (path : Path) (body : Bytes)
    (encoding : Option Str) (files : Files) : Option DiskVariant × Files :=
  let etag := etagFor body
  if writes path then
    (some { headerKa := buildHeader mime body.length etag encoding vary cc sh, path, len := body.length, etag, encoding },
      files.insert path body)
  else (none, files)

def writeOptional (writes : Path → Bool) (mime : Str) (vary : Bool) (cc sh : Str) (path : Path)
    (encoding : Str) (files : Files) : Option Bytes → Option (Option DiskVariant) × Files
  | none => (some none, files)
  | some body =>
    match writeVariant writes mime vary cc sh path body (some encoding) files with
    | (some v, files') => (some (some v), files')
    | (none, files') => (none, files')

/-- Snapshot one file's body and sidecars; `none` when a write fails. -/
def makeDiskEntry (c : Compressors) (writes : Path → Bool) (url mime : Str) (data : Bytes) (p : Policy)
    (buildDir : Path) (files : Files) : Option DiskEntry × Files :=
  let cc := p.cacheControlFor url
  let (gz, brb) := compressVariants c mime data p
  let vary := gz.isSome || brb.isSome
  let sh := p.securityHeaders
  match writeVariant writes mime vary cc sh (snapshotPath buildDir (str "identity") url) data none files with
  | (none, files) => (none, files)
  | (some identity, files) =>
    match writeOptional writes mime vary cc sh (snapshotPath buildDir (str "gzip") url) (str "gzip") files gz with
    | (none, files) => (none, files)
    | (some gzip, files) =>
      match writeOptional writes mime vary cc sh (snapshotPath buildDir (str "br") url) (str "br") files brb with
      | (none, files) => (none, files)
      | (some br, files) => (some { identity, gzip, br, cacheControl := cc, vary }, files)

/-! ## Entries -/

/-- One cached URL, in whichever backend the runtime was built with. -/
inductive Cached where
  | mem (m : MemEntry)
  | disk (d : DiskEntry)

/-- Resident bytes: whole buffers in memory, headers on disk. -/
def Cached.retainedBytes : Cached → Nat
  | .mem m => m.identity.fullKa.length + (m.gzip.map (·.fullKa.length)).getD 0 + (m.br.map (·.fullKa.length)).getD 0
  | .disk d => d.identity.headerKa.length + (d.gzip.map (·.headerKa.length)).getD 0 +
      (d.br.map (·.headerKa.length)).getD 0

abbrev Cache := Map Str Cached

/-- An owned snapshot directory and the files in it. -/
structure BuildDir where
  path : Path
  files : Files

/-- A built cache and, in disk mode, the snapshot its entries point into. -/
structure SiteCache where
  map : Cache
  buildDir : Option BuildDir

def SiteCache.empty : SiteCache := ⟨∅, none⟩

def cacheBytes (cache : Cache) : Nat := (cache.values.map Cached.retainedBytes).sum

end BareServer
