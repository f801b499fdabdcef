/-
Building a runtime from a config (`main.rs`: `build_tls`, `build_vhosts`, `build_runtime`). The TLS
library is third-party code and enters as a parameter.
-/
import BareServer.Watch.World

namespace BareServer

open BareServer.Lib

/-! ## Third-party code -/

/-- What comparing a certificate with a key gives. -/
inductive KeysMatch where
  | ok
  | unknown
  | err (e : Str)
  deriving DecidableEq, Repr

/-- The TLS library: PEM files to certificates and keys, and the checks on them. -/
structure Rustls where
  certs : Bytes → Except Str (List Bytes)
  privateKey : Bytes → Except Str (Option Bytes)
  anySupportedType : Bytes → Option Bytes
  keysMatch : List Bytes → Bytes → KeysMatch
  /-- The resolver's check that a certificate covers a name. -/
  covers : Str → List Bytes → Bytes → Except Str Unit
  safeDefaultVersions : Except Str Unit

/-- The libraries the process is linked with. -/
structure Crates where
  compressors : Compressors
  rustls : Rustls

/-- The TLS configuration: the certificates and key of every name, by SNI. -/
structure ServerConfig where
  byName : Map Str (List Bytes × Bytes)

section

variable {E : Type}

/-! ## TLS -/

def checkPair (r : Rustls) (certs : List Bytes) (key : Bytes) (label certPath keyPath : Str) : Except Str Unit :=
  match r.keysMatch certs key with
  | .ok | .unknown => .ok ()
  | .err e => .error (label ++ str ": key " ++ keyPath ++ str " does not match cert " ++ certPath ++ str ": " ++ e)

/-- Register one certificate under every name of a site. -/
def addNames (r : Rustls) (certPath : Str) (certs : List Bytes) (key : Bytes) :
    List Str → Map Str (List Bytes × Bytes) → Except Str (Map Str (List Bytes × Bytes))
  | [], byName => .ok byName
  | host :: hosts, byName =>
    match r.covers host certs key with
    | .error e => .error (host ++ str ": sni add failed (cert " ++ certPath ++ str " must cover this name): " ++ e)
    | .ok () => addNames r certPath certs key hosts (byName.insert host (certs, key))

/-- A site's label in messages. -/
def SiteConfig.label (s : SiteConfig) : Str := (str ",").intercalate s.hosts

/-- The certificates of a site from its opened file. -/
def readCerts (r : Rustls) (s : SiteConfig) : Except Str Bytes → Except Str (List Bytes)
  | .error e => .error (s.label ++ str ": cannot open cert " ++ s.cert ++ str ": " ++ e)
  | .ok pem =>
    match r.certs pem with
    | .error e => .error (s.label ++ str ": cannot parse cert: " ++ e)
    | .ok certs => if certs.isEmpty then .error (s.label ++ str ": no certificates in " ++ s.cert) else .ok certs

/-- The signing key of a site from its opened file. -/
def readKey (r : Rustls) (s : SiteConfig) : Except Str Bytes → Except Str Bytes
  | .error e => .error (s.label ++ str ": cannot open key " ++ s.key ++ str ": " ++ e)
  | .ok pem =>
    match r.privateKey pem with
    | .error e => .error (s.label ++ str ": cannot read key: " ++ e)
    | .ok none => .error (s.label ++ str ": no private key in " ++ s.key)
    | .ok (some key) =>
      match r.anySupportedType key with
      | none => .error (s.label ++ str ": unsupported key type")
      | some signing => .ok signing

/-- One site's certificate: the cert file is read, then the key file, then the pair is checked and
registered under every name. -/
def addSite (r : Rustls) (byName : Map Str (List Bytes × Bytes)) (s : SiteConfig) :
    Look E (Except Str (Map Str (List Bytes × Bytes))) := do
  match ← .view fun w => readCerts r s (w.openFile s.cert) with
  | .error e => return .error e
  | .ok certs =>
    match ← .view fun w => readKey r s (w.openFile s.key) with
    | .error e => return .error e
    | .ok key =>
      return do
        checkPair r certs key s.label s.cert s.key
        addNames r s.cert certs key s.hosts byName

/-- The loop of `build_tls` over the sites. -/
def addSites (r : Rustls) (byName : Map Str (List Bytes × Bytes)) : List SiteConfig →
    Look E (Except Str (Map Str (List Bytes × Bytes)))
  | [] => pure (.ok byName)
  | s :: rest => do
    match ← addSite r byName s with
    | .error e => return .error e
    | .ok byName' => addSites r byName' rest

def buildTls (r : Rustls) (cfg : Config) : Look E (Except Str ServerConfig) := do
  match ← addSites r ∅ cfg.sites with
  | .error e => return .error e
  | .ok byName =>
    match r.safeDefaultVersions with
    | .error e => return .error (str "tls versions: " ++ e)
    | .ok () => return .ok ⟨byName⟩

/-! ## Virtual hosts -/

def sitePolicy (cfg : Config) (s : SiteConfig) : Policy :=
  .withHeaders s.tuning s.headers cfg.storage (cfg.diskCache.getD [])

/-- A site's live record around its root and cache. -/
def siteOf (cfg : Config) (s : SiteConfig) (id : Nat) (root : Option Path) (cache : SiteCache) : Site where
  id
  root
  cache
  forceSsl := s.forceSsl
  canonicalUrls := s.canonicalUrls
  redirects := s.redirects
  policy := sitePolicy cfg s

/-- One site of `build_vhosts`, charged to `total`; the second component is the next build number. -/
def buildSite (c : Compressors) (cfg : Config) (s : SiteConfig) (id total seq : Nat) :
    Look E (Except Str (Site × Nat) × Nat) := do
  let policy := sitePolicy cfg s
  let oneSet := policy.errors.retainedBytes
  let total := total + oneSet
  let budget := policy.t.maxTotalBytes
  if total > budget then
    return (.error (str "site " ++ s.label ++ str ": max_total_bytes (" ++ dec budget ++ str ") is too small: " ++
      dec total ++ str " bytes are retained through this site, " ++ dec oneSet ++
      str (" of them by this site's precomputed error responses. The rest is the server error set and the " ++
        "content of the sites before this one")), seq)
  else
    match s.root with
    | none => return (.ok (siteOf cfg s id none .empty, total), seq)
    | some r =>
      match ← .view fun w => w.canonicalize r with
      | .error e => return (.error (str "site " ++ s.label ++ str ": root " ++ r ++ str " unusable: " ++ e), seq)
      | .ok root =>
        if !(← .view fun w => (w.node root).isDir) then
          return (.error (str "site " ++ s.label ++ str ": root " ++ r ++ str " is not a directory"), seq)
        else
          match ← .view fun w => buildCache ⟨c, w.mkdir, w.writes⟩ policy seq (w.node root) total with
          | (none, seq) =>
            return (.error (str "site " ++ s.label ++ str ": root " ++ r ++
              str " unreadable, or its content takes the cache over max_total_bytes (" ++ dec budget ++
              str ", of which " ++ dec total ++ str " bytes were already retained)"), seq)
          | (some (cache, total), seq) => return (.ok (siteOf cfg s id (some root) cache, total), seq)

/-- Enter one site under all its hosts. -/
def insertHosts (site : Site) : List Str → Sites → Except Str Sites
  | [], sites => .ok sites
  | host :: hosts, sites =>
    if (sites.lookup host).isSome then .error (str "duplicate host across sites: " ++ host)
    else insertHosts site hosts (sites.insert host site)

/-- The loop of `build_vhosts` from site number `id`. -/
def buildSites (c : Compressors) (cfg : Config) (sites : Sites) (id total seq : Nat) :
    List SiteConfig → Look E (Except Str Sites × Nat)
  | [] => pure (.ok sites, seq)
  | s :: rest => do
    match ← buildSite c cfg s id total seq with
    | (.error e, seq) => return (.error e, seq)
    | (.ok (site, total), seq) =>
      match insertHosts site s.hosts sites with
      | .error e => return (.error e, seq)
      | .ok sites => buildSites c cfg sites (id + 1) total seq rest

def buildVhosts (c : Compressors) (cfg : Config) (seq : Nat) : Look E (Except Str Vhosts × Nat) := do
  let serverErrors := ErrorPages.new cfg.headers.render
  match ← buildSites c cfg ∅ 0 serverErrors.retainedBytes seq cfg.sites with
  | (.error e, seq) => return (.error e, seq)
  | (.ok sites, seq) => return (.ok { sites, httpsPort := cfg.port, httpPort := cfg.httpPort, errors := serverErrors }, seq)

/-- Resident bytes of the table outside the content caches, one set for each distinct site. -/
def errorPageBytes (vhosts : Vhosts) : Nat :=
  vhosts.errors.retainedBytes +
    ((vhosts.sites.values.pwFilter fun a b => a.id ≠ b.id).map fun s => s.policy.errors.retainedBytes).sum

/-! ## Runtimes -/

/-- What is swapped at run time. -/
structure Runtime where
  vhosts : Vhosts
  tls : ServerConfig

/-- Both halves, TLS first. -/
def buildRuntime (c : Crates) (cfg : Config) (seq : Nat) : Look E (Except Str Runtime × Nat) := do
  match ← buildTls c.rustls cfg with
  | .error e => return (.error e, seq)
  | .ok tls =>
    match ← buildVhosts c.compressors cfg seq with
    | (.error e, seq) => return (.error e, seq)
    | (.ok vhosts, seq) => return (.ok ⟨vhosts, tls⟩, seq)

end
end BareServer
