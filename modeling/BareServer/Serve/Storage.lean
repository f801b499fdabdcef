/-
The storage backend does not show: a site whose cache is held in memory and the same site with its
bodies in an intact snapshot have the same keys and answer every request with the same bytes.
-/
import BareServer.Serve.CacheSpec
import BareServer.Serve.TextSpec
import BareServer.Serve.Isolation

namespace BareServer

open BareServer.Lib

/-! ## Two answers -/

/-- The same bytes and the same decision about the connection. -/
structure SameAnswer (a b : Reply) : Prop where
  out : a.out = b.out
  result : a.result = b.result

theorem SameAnswer.rfl {a : Reply} : SameAnswer a a := ⟨Eq.refl _, Eq.refl _⟩

/-- Both entries answer every request alike. -/
def SameEntry (fs : FileSys) (p : Policy) (e e' : Cached) : Prop :=
  ∀ acceptEnc inm keepAlive isHead,
    SameAnswer (serveCached fs e acceptEnc inm keepAlive isHead p) (serveCached fs e' acceptEnc inm keepAlive isHead p)

/-- A policy with another backend. -/
def Policy.storing (p : Policy) (storage : Storage) : Policy := { p with storage }

/-- The files of a snapshot read back as they were written. -/
def Unmodified (fs : FileSys) (files : Files) : Prop :=
  ∀ path content, files.lookup path = some content → ∃ reads, fs.snapshot path = some reads ∧ ReadsTo reads content

/-! ## One entry -/

/-- An entry in memory and the entry of the same file on disk answer alike when every body of the
file reads back. -/
theorem sameEntry_diskEntry {fs : FileSys} {c : Compressors} {url mime : Str} {data : Bytes} {p : Policy} {bd : Path}
    (hfs : ∀ nb ∈ bodies c mime data p, ∃ reads, fs.snapshot (snapshotPath bd nb.1 url) = some reads ∧
      ReadsTo reads nb.2) :
    SameEntry fs p (.mem (makeCached c url mime data p)) (.disk (diskEntry c url mime data p bd)) := by
  intro acceptEnc inm keepAlive isHead
  obtain ⟨ns, hpick, hmem⟩ := diskEntry_pick c mime p url data bd acceptEnc
  obtain ⟨reads, hsnap, hreads⟩ := hfs _ hmem
  have hstream := streamBody_readsTo hreads (chosenBody c mime data p acceptEnc).1.length
  rw [List.take_length] at hstream
  have hcc : (makeCached c url mime data p).cacheControl = (diskEntry c url mime data p bd).cacheControl := rfl
  have hvary : (makeCached c url mime data p).vary = (diskEntry c url mime data p bd).vary := rfl
  simp only [serveCached, serveMem, serveDisk, makeCached_pick, hpick, hcc, hvary]
  simp only [buildVariant, diskVariant, List.take_left, List.drop_left]
  by_cases hnm : notModified inm (etagFor (chosenBody c mime data p acceptEnc).1) = true
  · simp only [hnm, if_true]
    exact .rfl
  · simp only [hnm, Bool.false_eq_true, if_false]
    cases isHead with
    | true => cases keepAlive <;> constructor <;> simp
    | false =>
      simp only [Bool.false_eq_true, if_false, hsnap, hstream]
      cases keepAlive <;> constructor <;> simp

/-! ## One site -/

section

variable {fs : FileSys} {p : Policy} {site : Site} {vm vd : Vhosts} {req : Request} {hostKey : Str}
  {keepAlive redirectHttps : Bool}

/-- A site with a cache of one backend. -/
def Site.storing (site : Site) (storage : Storage) (cache : SiteCache) : Site :=
  { site with cache, policy := site.policy.storing storage }

/-- Two tables that differ in one site only, which is in memory in the one and on disk in the other. -/
structure OneSiteMoved (site : Site) (memCache diskCache : SiteCache) (vm vd : Vhosts) : Prop where
  httpsPort : vm.httpsPort = vd.httpsPort
  httpPort : vm.httpPort = vd.httpPort
  errors : vm.errors = vd.errors
  sites : ∀ host, vm.sites.lookup host = vd.sites.lookup host ∨
    vm.sites.lookup host = some (site.storing .memory memCache) ∧
      vd.sites.lookup host = some (site.storing .disk diskCache)

variable {memCache diskCache : SiteCache}

theorem redirectFor_moved (hv : OneSiteMoved site memCache diskCache vm vd) (target path query decoded : Str) :
    redirectFor (site.storing .memory memCache) vm hostKey target path query decoded redirectHttps =
      redirectFor (site.storing .disk diskCache) vd hostKey target path query decoded redirectHttps := by
  unfold redirectFor
  rw [hv.httpsPort, hv.httpPort]
  rfl

theorem dirLocation_moved (hv : OneSiteMoved site memCache diskCache vm vd) (query decoded : Str) :
    dirLocation (site.storing .memory memCache) vm hostKey query decoded redirectHttps =
      dirLocation (site.storing .disk diskCache) vd hostKey query decoded redirectHttps := by
  unfold dirLocation
  rw [hv.httpsPort, hv.httpPort]
  rfl

/-- Past the redirects, related caches answer alike. -/
theorem serveContent_moved (hv : OneSiteMoved site memCache diskCache vm vd)
    (hcache : ∀ url, Option.Rel (SameEntry fs site.policy) (memCache.map.lookup url) (diskCache.map.lookup url))
    (query decoded : Str) :
    SameAnswer
      (serveContent fs (site.storing .memory memCache) vm req hostKey query decoded keepAlive redirectHttps)
      (serveContent fs (site.storing .disk diskCache) vd req hostKey query decoded keepAlive redirectHttps) := by
  unfold serveContent
  rw [dirLocation_moved hv]
  simp only
  split
  · exact .rfl
  · have hres := resolve_rel hcache decoded
    have hm : (site.storing .memory memCache).cache = memCache := rfl
    have hd : (site.storing .disk diskCache).cache = diskCache := rfl
    rw [hm, hd]
    generalize resolve memCache.map decoded = x at hres ⊢
    generalize resolve diskCache.map decoded = y at hres ⊢
    rcases hres with (hr | -) | -
    · exact hr _ _ _ _
    · exact .rfl
    · exact .rfl

theorem handleSite_moved (hv : OneSiteMoved site memCache diskCache vm vd)
    (hcache : ∀ url, Option.Rel (SameEntry fs site.policy) (memCache.map.lookup url) (diskCache.map.lookup url)) :
    SameAnswer (handleSite fs (site.storing .memory memCache) vm req hostKey keepAlive redirectHttps)
      (handleSite fs (site.storing .disk diskCache) vd req hostKey keepAlive redirectHttps) := by
  unfold handleSite
  simp only
  split
  · exact .rfl
  split
  · exact .rfl
  cases (percentDecode (targetPath req.target)).bind fromUtf8 with
  | none => exact .rfl
  | some decoded =>
    simp only
    rw [redirectFor_moved hv]
    split
    · exact .rfl
    · exact serveContent_moved hv hcache _ _

theorem handleAccepted_moved (hv : OneSiteMoved site memCache diskCache vm vd)
    (hcache : ∀ url, Option.Rel (SameEntry fs site.policy) (memCache.map.lookup url) (diskCache.map.lookup url))
    (sni : Option Str) :
    SameAnswer (handleAccepted fs vm req keepAlive redirectHttps sni)
      (handleAccepted fs vd req keepAlive redirectHttps sni) := by
  unfold handleAccepted
  rw [hv.errors]
  simp only
  split
  · exact .rfl
  · rcases hv.sites (normalizeHost req.fields.hostHdr) with heq | ⟨hm, hd⟩
    · rw [heq]
      cases vd.sites.lookup (normalizeHost req.fields.hostHdr) with
      | none => exact .rfl
      | some other =>
        have hports := handleSite_ports ⟨hv.httpsPort, hv.httpPort⟩ other (normalizeHost req.fields.hostHdr)
        simp only [hports]
        exact .rfl
    · rw [hm, hd]
      exact handleSite_moved hv hcache

end

/-! ## One tree in two backends -/

/-- Both builds of a tree enter the same URLs, and their entries answer alike. -/
theorem buildCache_sameEntry {fs : FileSys} {p : Policy} {node : Node} {memEnv diskEnv : BuildEnv}
    {memCache diskCache : SiteCache} {memSeq diskSeq memTotal diskTotal memTotal' diskTotal' memSeq' diskSeq' : Nat}
    (hw : WellNamed node) (henv : memEnv.compressors = diskEnv.compressors) (hwrites : ∀ path, diskEnv.writes path = true)
    (hm : buildCache memEnv (p.storing .memory) memSeq node memTotal = (some (memCache, memTotal'), memSeq'))
    (hd : buildCache diskEnv (p.storing .disk) diskSeq node diskTotal = (some (diskCache, diskTotal'), diskSeq'))
    (hfs : ∀ dir files, diskCache.buildDir = some ⟨dir, files⟩ → Unmodified fs files) (url : Str) :
    Option.Rel (SameEntry fs p) (memCache.map.lookup url) (diskCache.map.lookup url) := by
  have hmem := buildCache_holds hw hm
  have hdisk := buildCache_holds hw hd
  let bd := buildDirPath (p.storing .disk) diskSeq
  have hentry : ∀ url data, entryFor diskEnv (p.storing .disk) (snapshotDir (p.storing .disk) diskSeq) url data =
      some (.disk (diskEntry diskEnv.compressors url (mimeFor url) data p bd)) := by
    intro url data
    have hall : canSnapshot diskEnv (mimeFor url) data (p.storing .disk) bd url = true := by
      simp [canSnapshot, hwrites]
    show (if canSnapshot diskEnv (mimeFor url) data (p.storing .disk) bd url then _ else none) = _
    rw [hall, if_pos rfl]
    rfl
  -- both builds hold exactly the files of the tree that are within the size limit
  cases hml : memCache.map.lookup url with
  | some e =>
    obtain ⟨names, info, data, hat, rfl, hsize, he⟩ := (hmem.lookup url e).1 hml
    have hdl := (hdisk.lookup _ _).2 ⟨names, info, data, hat, rfl, hsize, hentry _ _⟩
    obtain ⟨files, hdir, hstored⟩ := hdisk.stored names info data hat hsize (by rw [hentry]; rfl) bd rfl
    rw [hdl]
    cases Option.some.inj he
    refine .some ?_
    rw [henv]
    refine sameEntry_diskEntry fun nb hnb => ?_
    exact hfs bd files hdir _ _ (hstored nb hnb)
  | none =>
    cases hdl : diskCache.map.lookup url with
    | none => exact .none
    | some e =>
      obtain ⟨names, info, data, hat, rfl, hsize, -⟩ := (hdisk.lookup url e).1 hdl
      rw [(hmem.lookup _ _).2 ⟨names, info, data, hat, rfl, hsize, rfl⟩] at hml
      cases hml

/-- A site in memory and the same site on disk have the same keys and answer every request with the
same bytes and the same decision about the connection. -/
theorem handleRequest_storage (fs : FileSys) (p : Policy) (node : Node) (hw : WellNamed node) (c : Compressors)
    (memEnv diskEnv : BuildEnv) (hmemEnv : memEnv.compressors = c) (hdiskEnv : diskEnv.compressors = c)
    (hwrites : ∀ path, diskEnv.writes path = true) (memCache diskCache : SiteCache)
    (memSeq diskSeq memTotal diskTotal memTotal' diskTotal' memSeq' diskSeq' : Nat)
    (hm : buildCache memEnv (p.storing .memory) memSeq node memTotal = (some (memCache, memTotal'), memSeq'))
    (hd : buildCache diskEnv (p.storing .disk) diskSeq node diskTotal = (some (diskCache, diskTotal'), diskSeq'))
    (hfs : ∀ dir files, diskCache.buildDir = some ⟨dir, files⟩ → Unmodified fs files)
    (site : Site) (hpolicy : site.policy = p) (vm vd : Vhosts) (hv : OneSiteMoved site memCache diskCache vm vd) :
    (∀ url, (memCache.map.lookup url).isSome = (diskCache.map.lookup url).isSome) ∧
    ∀ head wantKa redirectHttps sni,
      SameAnswer (handleRequest fs head vm wantKa redirectHttps sni)
        (handleRequest fs head vd wantKa redirectHttps sni) := by
  subst hpolicy
  have hcache := buildCache_sameEntry hw (hmemEnv.trans hdiskEnv.symm) hwrites hm hd hfs
  refine ⟨fun url => ?_, fun head wantKa redirectHttps sni => ?_⟩
  · have hrel := hcache url
    generalize memCache.map.lookup url = x at hrel ⊢
    generalize diskCache.map.lookup url = y at hrel ⊢
    cases hrel <;> rfl
  · unfold handleRequest
    cases readRequest head with
    | error isHead => rw [hv.errors]; exact .rfl
    | ok req => exact handleAccepted_moved hv hcache sni

/-- A file system that gives every snapshot file in one read. -/
def readBack (files : Files) : FileSys where
  snapshot path := (files.lookup path).map fun content => if content.isEmpty then [] else [some content]
  isSymlink _ := none
  token _ := none

theorem unmodified_readBack (files : Files) : Unmodified (readBack files) files := by
  intro path content h
  refine ⟨if content.isEmpty then [] else [some content], ?_, ?_⟩
  · simp only [readBack, h, Option.map_some]
  · cases content with
    | nil => exact ⟨[], rfl, nofun, rfl⟩
    | cons b t => exact ⟨[b :: t], rfl, by simp, by simp⟩

/-- A script beside a sidecar that has the name of its gzip form. -/
def sidecarTree : Node :=
  .dir (some [(str "a.js", .file ⟨6, none⟩ (some (str "let a;"))), (str "a.js.gz", .file ⟨4, none⟩ (some (str "gzip")))])

/-- Compressors that cut, and a policy that compresses everything they can. -/
def sidecarEnv : BuildEnv := ⟨⟨fun d _ => d.take 1, fun d _ => d.take 2⟩, fun _ => true, fun _ => true⟩

def sidecarPolicy (storage : Storage) : Policy :=
  .withHeaders { Tuning.default with minCompressBytes := 1 } .default storage (str "/snap")

def sidecarSite : Site := ⟨0, none, .empty, true, false, default, sidecarPolicy .memory⟩

/-- The table of the one site in one backend. -/
def sidecarTable (storage : Storage) (cache : SiteCache) : Vhosts :=
  ⟨(∅ : Sites).insert (str "a.example") (sidecarSite.storing storage cache), str "443", str "80",
    sidecarSite.policy.errors⟩

theorem wellNamed_sidecarTree : WellNamed sidecarTree := by
  have hnames : IsName (str "a.js") ∧ IsName (str "a.js.gz") := by
    refine ⟨⟨?_, ?_, ?_⟩, ⟨?_, ?_, ?_⟩⟩ <;> decide
  refine .dir (by decide) ?_ ?_
  · simpa using hnames
  · simpa using ⟨WellNamed.file _ _, WellNamed.file _ _⟩

theorem sidecarTable_moved (memCache diskCache : SiteCache) :
    OneSiteMoved sidecarSite memCache diskCache (sidecarTable .memory memCache) (sidecarTable .disk diskCache) := by
  refine ⟨rfl, rfl, rfl, fun host => ?_⟩
  unfold sidecarTable
  simp only [Map.lookup_insert']
  by_cases hh : host = str "a.example" <;> simp [hh]

/-- Two files with compressed variants, the second named like a sidecar of the first. -/
theorem handleRequest_storage_sidecar : ∃ memCache diskCache dir files,
    diskCache.buildDir = some ⟨dir, files⟩ ∧
    (memCache.map.lookup (str "/a.js")).isSome = (diskCache.map.lookup (str "/a.js")).isSome ∧
    SameAnswer
      (handleRequest (readBack files) (str "GET /a.js HTTP/1.1\r\nHost: a.example\r\nAccept-Encoding: gzip\r\n\r\n")
        (sidecarTable .memory memCache) true false none)
      (handleRequest (readBack files) (str "GET /a.js HTTP/1.1\r\nHost: a.example\r\nAccept-Encoding: gzip\r\n\r\n")
        (sidecarTable .disk diskCache) true false none) := by
  obtain ⟨⟨memCache, memTotal⟩, hm⟩ := Option.isSome_iff_exists.1
    (show (buildCache sidecarEnv (sidecarSite.policy.storing .memory) 0 sidecarTree 0).1.isSome from by decide +kernel)
  obtain ⟨⟨diskCache, diskTotal⟩, hd⟩ := Option.isSome_iff_exists.1
    (show (buildCache sidecarEnv (sidecarSite.policy.storing .disk) 0 sidecarTree 0).1.isSome from by decide +kernel)
  obtain ⟨dir, files, hdir⟩ : ∃ dir files, diskCache.buildDir = some ⟨dir, files⟩ := by
    obtain ⟨fs, b, -, -, rfl⟩ := buildCache_some (pair_of_fst hd)
    exact ⟨_, b.files, rfl⟩
  have hfs : ∀ dir' files', diskCache.buildDir = some ⟨dir', files'⟩ → Unmodified (readBack files) files' := by
    intro dir' files' hdir'
    rw [hdir] at hdir'
    cases hdir'
    exact unmodified_readBack files
  have hsame := handleRequest_storage (readBack files) _ sidecarTree wellNamed_sidecarTree _ sidecarEnv sidecarEnv rfl rfl
    (fun _ => rfl) memCache diskCache 0 0 0 0 memTotal diskTotal _ _ (pair_of_fst hm) (pair_of_fst hd) hfs sidecarSite
    rfl _ _ (sidecarTable_moved memCache diskCache)
  exact ⟨memCache, diskCache, dir, files, hdir, hsame.1 _, hsame.2 _ _ _ _⟩

end BareServer
