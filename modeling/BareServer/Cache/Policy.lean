/-
What every response of a site is built from (`cache.rs`, `mime.rs`): the media type of a URL, the
precomputed status responses, and the policy resolved once for each cache build.
-/
import BareServer.Config.Settings

namespace BareServer

open BareServer.Lib

/-! ## Media types -/

/-- The media type of a URL, by what follows its last dot. -/
def mimeFor (path : Str) : Str :=
  match rsplitOnce path 46 with
  | none => str "application/octet-stream"
  | some (_, ext) =>
    let e := lower ext
    if e == str "html" || e == str "htm" then str "text/html; charset=utf-8"
    else if e == str "css" then str "text/css; charset=utf-8"
    else if e == str "js" || e == str "mjs" then str "text/javascript; charset=utf-8"
    else if e == str "json" then str "application/json; charset=utf-8"
    else if e == str "txt" then str "text/plain; charset=utf-8"
    else if e == str "xml" then str "application/xml; charset=utf-8"
    else if e == str "svg" then str "image/svg+xml"
    else if e == str "png" then str "image/png"
    else if e == str "jpg" || e == str "jpeg" then str "image/jpeg"
    else if e == str "gif" then str "image/gif"
    else if e == str "webp" then str "image/webp"
    else if e == str "avif" then str "image/avif"
    else if e == str "ico" then str "image/x-icon"
    else if e == str "woff" then str "font/woff"
    else if e == str "woff2" then str "font/woff2"
    else if e == str "ttf" then str "font/ttf"
    else if e == str "pdf" then str "application/pdf"
    else if e == str "wasm" then str "application/wasm"
    else if e == str "mp4" then str "video/mp4"
    else if e == str "webm" then str "video/webm"
    else if e == str "mp3" then str "audio/mpeg"
    else str "application/octet-stream"

/-! ## Status responses -/

/-- One precomputed response; `headerLen` marks where the body starts. -/
structure Prebuilt where
  full : Bytes
  headerLen : Nat

/-- One status response in both `Connection` forms. -/
structure StatusResponse where
  ka : Prebuilt
  close : Prebuilt

namespace StatusResponse

def bytes (r : StatusResponse) (keepAlive isHead : Bool) : Bytes :=
  let p := if keepAlive then r.ka else r.close
  if isHead then p.full.take p.headerLen else p.full

def retainedBytes (r : StatusResponse) : Nat := r.ka.full.length + r.close.full.length

end StatusResponse

def statusBody (code : Nat) (reason : Str) : Str :=
  str "<!doctype html><title>" ++ dec code ++ str " " ++ reason ++ str "</title><h1>" ++ dec code ++
    str " " ++ reason ++ str "</h1>\n"

/-- The header of a status response in one `Connection` form; a 405 carries `Allow`. -/
def statusHead (code : Nat) (reason securityHeaders conn : Str) : Str :=
  str "HTTP/1.1 " ++ dec code ++ str " " ++ reason ++ str "\r\n" ++
  str "Content-Type: text/html; charset=utf-8\r\n" ++
  str "Content-Length: " ++ dec (statusBody code reason).length ++ str "\r\n" ++
  str "Cache-Control: no-store\r\n" ++
  str "Connection: " ++ conn ++ str "\r\n" ++
  (if code == 405 then str "Allow: GET, HEAD\r\n" else []) ++
  securityHeaders ++ str "\r\n"

def buildStatus (code : Nat) (reason securityHeaders : Str) : StatusResponse :=
  let form (conn : Str) : Prebuilt :=
    let head := statusHead code reason securityHeaders conn
    { full := head ++ statusBody code reason, headerLen := head.length }
  { ka := form (str "keep-alive"), close := form (str "close") }

/-- Every status the server generates on its own. -/
structure ErrorPages where
  badRequest : StatusResponse
  notFound : StatusResponse
  methodNotAllowed : StatusResponse
  requestTimeout : StatusResponse
  headersTooLarge : StatusResponse
  internalError : StatusResponse

namespace ErrorPages

def new (securityHeaders : Str) : ErrorPages where
  badRequest := buildStatus 400 (str "Bad Request") securityHeaders
  notFound := buildStatus 404 (str "Not Found") securityHeaders
  methodNotAllowed := buildStatus 405 (str "Method Not Allowed") securityHeaders
  requestTimeout := buildStatus 408 (str "Request Timeout") securityHeaders
  headersTooLarge := buildStatus 431 (str "Request Header Fields Too Large") securityHeaders
  internalError := buildStatus 500 (str "Internal Server Error") securityHeaders

def retainedBytes (e : ErrorPages) : Nat :=
  e.badRequest.retainedBytes + e.notFound.retainedBytes + e.methodNotAllowed.retainedBytes +
    e.requestTimeout.retainedBytes + e.headersTooLarge.retainedBytes + e.internalError.retainedBytes

end ErrorPages

/-! ## Policy -/

abbrev Path := Bytes

/-- The settings one site's cache is built with and its responses carry. -/
structure Policy where
  t : Tuning
  ccImmutable : Str
  ccRevalidate : Str
  securityHeaders : Str
  errors : ErrorPages
  storage : Storage
  diskCache : Path

def Policy.withHeaders (t : Tuning) (h : HeaderConfig) (storage : Storage) (diskCache : Path) : Policy where
  t
  ccImmutable := str "public, max-age=" ++ dec t.immutableMaxAge ++ str ", immutable"
  ccRevalidate := str "public, max-age=" ++ dec t.cacheMaxAge ++ str ", must-revalidate"
  securityHeaders := h.render
  errors := ErrorPages.new h.render
  storage
  diskCache

def isHexDigit (b : UInt8) : Bool := isDigit b || (65 ≤ b && b ≤ 70) || (97 ≤ b && b ≤ 102)

/-- Does the file name carry a content hash: a last `-` segment of its stem of eight or more hex
digits, not all decimal? -/
def isFingerprinted (url : Str) : Bool :=
  let file := match rsplitOnce url 47 with
    | some (_, f) => f
    | none => url
  match rsplitOnce file 46 with
  | none => false
  | some (stem, _) =>
    match rsplitOnce stem 45 with
    | some (_, hash) => decide (8 ≤ hash.length) && hash.all isHexDigit && !hash.all isDigit
    | none => false

def Policy.cacheControlFor (p : Policy) (url : Str) : Str :=
  if isFingerprinted url then p.ccImmutable else p.ccRevalidate

end BareServer
