/-
The settings (`config.rs`): the records a config resolves to, their defaults, the rendered
security-header block, and the value parsers.
-/
import BareServer.Config.Redirects

namespace BareServer

open BareServer.Lib

/-! ## Records -/

/-- Where site content lives at runtime. -/
inductive Storage where
  | memory
  | disk
  deriving DecidableEq, Repr

/-- Cache and compression settings. -/
structure Tuning where
  compression : Bool
  brotliQuality : Nat
  gzipLevel : Nat
  minCompressBytes : Nat
  maxBrotliBytes : Nat
  maxGzipBytes : Nat
  maxFileSize : Nat
  maxTotalBytes : Nat
  cacheMaxAge : Nat
  immutableMaxAge : Nat
  deriving DecidableEq, Repr

/-- Response-header policy; an age of 0 and an empty `csp` omit their headers. -/
structure HeaderConfig where
  hstsMaxAge : Nat
  hstsIncludeSubdomains : Bool
  hstsPreload : Bool
  csp : Str
  deriving DecidableEq, Repr

def Tuning.default : Tuning where
  compression := true
  brotliQuality := 11
  gzipLevel := 9
  minCompressBytes := 64
  maxBrotliBytes := 8 * 2 ^ 20
  maxGzipBytes := 64 * 2 ^ 20
  maxFileSize := 256 * 2 ^ 20
  maxTotalBytes := 2 * 2 ^ 30
  cacheMaxAge := 0
  immutableMaxAge := 31536000

def HeaderConfig.default : HeaderConfig where
  hstsMaxAge := 63072000
  hstsIncludeSubdomains := true
  hstsPreload := true
  csp := []

def defMaxConnsPerIp : Nat := 64

/-- The security-header block of every response; each line ends with CRLF. -/
def HeaderConfig.render (h : HeaderConfig) : Str :=
  str "X-Content-Type-Options: nosniff\r\n" ++
  str "X-Frame-Options: SAMEORIGIN\r\n" ++
  str "Referrer-Policy: strict-origin-when-cross-origin\r\n" ++
  str "Permissions-Policy: camera=(), microphone=(), geolocation=()\r\n" ++
  (if h.hstsMaxAge > 0 then
    str "Strict-Transport-Security: max-age=" ++ dec h.hstsMaxAge ++
    (if h.hstsIncludeSubdomains then str "; includeSubDomains" else []) ++
    (if h.hstsPreload then str "; preload" else []) ++ str "\r\n"
  else []) ++
  (if h.csp.isEmpty then [] else str "Content-Security-Policy: " ++ h.csp ++ str "\r\n")

/-- One virtual host. -/
structure SiteConfig where
  hosts : List Str
  root : Option Str
  cert : Str
  key : Str
  forceSsl : Bool
  canonicalUrls : Bool
  redirects : Redirects
  tuning : Tuning
  headers : HeaderConfig

structure Config where
  host : Str
  port : Str
  httpHost : Str
  httpPort : Str
  sites : List SiteConfig
  headers : HeaderConfig
  maxConnsPerIp : Nat
  maxResponseSecs : Nat
  storage : Storage
  diskCache : Option Str

/-! ## Value parsers -/

/-- The bound of `usize` and `u64`. -/
def word64 : Nat := 2 ^ 64

/-- A byte size: a count, or one with a binary K, M or G suffix. -/
def parseSize (key v : Str) : Except Str Nat :=
  let v := trim v
  let (digits, mult) := match v.getLast?.map toLower with
    | some 107 => (v.dropLast, 2 ^ 10)
    | some 109 => (v.dropLast, 2 ^ 20)
    | some 103 => (v.dropLast, 2 ^ 30)
    | _ => (v, 1)
  match parseUnsigned word64 (trim digits) with
  | none => .error (key ++ str ": expected a byte size like 8M or 1048576 (got: " ++ v ++ str ")")
  | some n =>
    if n * mult < word64 then .ok (n * mult)
    else .error (key ++ str ": size overflows (got: " ++ v ++ str ")")

def parseBool (key v : Str) : Except Str Bool :=
  let w := lower (trim v)
  if [str "on", str "true", str "yes", str "1"].contains w then .ok true
  else if [str "off", str "false", str "no", str "0"].contains w then .ok false
  else .error (key ++ str ": expected on/off (got: " ++ v ++ str ")")

def parseRanged (key v : Str) (lo hi : Nat) : Except Str Nat :=
  match parseUnsigned (2 ^ 32) (trim v) with
  | none => .error (key ++ str ": expected a number " ++ dec lo ++ str "-" ++ dec hi ++ str " (got: " ++ v ++ str ")")
  | some n =>
    if n < lo || n > hi then
      .error (key ++ str ": must be " ++ dec lo ++ str "-" ++ dec hi ++ str " (got: " ++ dec n ++ str ")")
    else .ok n

/-- A duration in seconds. -/
def parseSecs (key v : Str) : Except Str Nat :=
  match parseUnsigned word64 (trim v) with
  | none => .error (key ++ str ": expected a number of seconds (got: " ++ v ++ str ")")
  | some n => .ok n

/-- A duration that becomes an instant: at most a day. -/
def parseDeadlineSecs (key v : Str) : Except Str Nat := do
  let n ← parseSecs key v
  if n > 86400 then
    .error (key ++ str ": at most 86400 seconds (one day), got " ++ dec n)
  else .ok n

def parseCount (key v : Str) : Except Str Nat :=
  match parseUnsigned word64 (trim v) with
  | none => .error (key ++ str ": expected a non-negative integer (got: " ++ v ++ str ")")
  | some n => .ok n

/-- A value destined for a response header. -/
def parseHeaderValue (key v : Str) : Except Str Str :=
  let v := trim v
  if v.any isControl then
    .error (key ++ str ": control characters are not allowed in a header value")
  else .ok v

/-! ## Shared settings -/

/-- Apply a setting valid at both levels; `none` for a key it does not own. -/
def applyShared (t : Tuning) (h : HeaderConfig) (k v : Str) : Except Str (Option (Tuning × HeaderConfig)) :=
  if k == str "compression" then (parseBool k v).map fun x => some ({ t with compression := x }, h)
  else if k == str "brotli_quality" then (parseRanged k v 0 11).map fun x => some ({ t with brotliQuality := x }, h)
  else if k == str "gzip_level" then (parseRanged k v 0 9).map fun x => some ({ t with gzipLevel := x }, h)
  else if k == str "min_compress_bytes" then (parseSize k v).map fun x => some ({ t with minCompressBytes := x }, h)
  else if k == str "max_brotli_bytes" then (parseSize k v).map fun x => some ({ t with maxBrotliBytes := x }, h)
  else if k == str "max_gzip_bytes" then (parseSize k v).map fun x => some ({ t with maxGzipBytes := x }, h)
  else if k == str "max_file_size" then (parseSize k v).map fun x => some ({ t with maxFileSize := x }, h)
  else if k == str "cache_max_age" then (parseSecs k v).map fun x => some ({ t with cacheMaxAge := x }, h)
  else if k == str "immutable_max_age" then (parseSecs k v).map fun x => some ({ t with immutableMaxAge := x }, h)
  else if k == str "hsts_max_age" then (parseSecs k v).map fun x => some (t, { h with hstsMaxAge := x })
  else if k == str "hsts_include_subdomains" then
    (parseBool k v).map fun x => some (t, { h with hstsIncludeSubdomains := x })
  else if k == str "hsts_preload" then (parseBool k v).map fun x => some (t, { h with hstsPreload := x })
  else if k == str "csp" then (parseHeaderValue k v).map fun x => some (t, { h with csp := x })
  else .ok none

/-- Why a server-only key is rejected inside a site block. -/
def serverOnlyReason (k : Str) : Option Str :=
  if k == str "listen" || k == str "listen_http" then some (str "the listeners are process-wide")
  else if k == str "max_total_bytes" then some (str "the cache budget is one pool shared by every site")
  else if k == str "storage" || k == str "disk_cache" then some (str "the storage backend is process-wide")
  else if k == str "max_conns_per_ip" || k == str "max_response_secs" then
    some (str "connection limits are enforced per listener, before the Host is known")
  else none

/-- The keys a site block owns. -/
def isSiteOnly (k : Str) : Bool :=
  [str "root", str "cert", str "key", str "force_ssl", str "canonical_urls", str "redirect"].contains k

end BareServer
