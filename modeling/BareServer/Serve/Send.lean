/-
Writing responses (`main.rs`): errors, redirects, 304s, entries of either backend, and the ACME
token read live from disk. A writer is modelled by what reaches it; the files a call opens are
recorded.
-/
import BareServer.Serve.Head

namespace BareServer

open BareServer.Lib

/-! ## Replies and files -/

/-- What one call wrote, the files it opened, and what it returned: whether to keep the connection,
or nothing on an I/O error. -/
structure Reply where
  out : Bytes
  opened : List Path
  result : Option Bool
  deriving DecidableEq, Repr

/-- A file of the ACME challenge directory, opened without following a symlink; `data` is what
reading it to the end gives. -/
structure TokenFile where
  isFile : Bool
  nlink : Nat
  len : Nat
  data : Option Bytes

/-- The files a request can reach. Opening a snapshot file gives the results of successive reads,
end of file after the last; a read that fails is `none`. `isSymlink` is `lstat`, `none` when that
fails. -/
structure FileSys where
  snapshot : Path → Option (List (Option Bytes))
  isSymlink : Path → Option Bool
  token : Path → Option TokenFile

def acmePrefix : Str := str "/.well-known/acme-challenge/"
def acmeTokenMaxLen : Nat := 128
def acmeTokenMaxBytes : Nat := 4096

/-! ## Errors and redirects -/

def connWord (keepAlive : Bool) : Str := if keepAlive then str "keep-alive" else str "close"

def sendError (resp : StatusResponse) (keepAlive isHead : Bool) : Bytes := resp.bytes keepAlive isHead

/-- Host, and the port when it is not the scheme's default. -/
def redirectAuthority (host port default : Str) : Str :=
  if port.isEmpty || port == default then host else host ++ str ":" ++ port

def sendRedirect (location : Str) (keepAlive : Bool) (hdrs : Str) : Bytes :=
  str "HTTP/1.1 301 Moved Permanently\r\n" ++
  str "Location: " ++ location ++ str "\r\n" ++
  str "Content-Length: 0\r\n" ++
  str "Connection: " ++ connWord keepAlive ++ str "\r\n" ++
  hdrs ++ str "\r\n"

/-! ## ACME tokens -/

/-- A token file's bytes, when it is a regular file with one link and not too long. -/
def readTokenFile (fs : FileSys) (path : Path) : Option Bytes :=
  match fs.token path with
  | none => none
  | some f =>
    if !f.isFile || f.nlink != 1 || f.len > acmeTokenMaxBytes then none
    else f.data.map (·.take acmeTokenMaxBytes)

def isTokenByte (b : UInt8) : Bool := isAlnum b || b == 45 || b == 95

def serveAcmeToken (fs : FileSys) (root : Path) (decoded : Str) (keepAlive isHead : Bool) (policy : Policy) :
    Reply :=
  let tok := decoded.drop acmePrefix.length
  let wellFormed := !tok.isEmpty && decide (tok.length ≤ acmeTokenMaxLen) && tok.all isTokenByte
  let noSymlink (p : Path) : Bool := fs.isSymlink p == some false
  let wellKnown := join root (str ".well-known")
  let challenge := join wellKnown (str "acme-challenge")
  let path := join challenge tok
  let readable := wellFormed && noSymlink wellKnown && noSymlink challenge
  let opened := if readable then [path] else []
  match (if readable then readTokenFile fs path else none) with
  | none => ⟨sendError policy.errors.notFound keepAlive isHead, opened, some keepAlive⟩
  | some body =>
    let head :=
      str "HTTP/1.1 200 OK\r\n" ++
      str "Content-Type: text/plain; charset=utf-8\r\n" ++
      str "Content-Length: " ++ dec body.length ++ str "\r\n" ++
      str "Cache-Control: no-store\r\n" ++
      str "Connection: " ++ connWord keepAlive ++ str "\r\n" ++
      policy.securityHeaders ++ str "\r\n"
    ⟨head ++ (if isHead then [] else body), opened, some keepAlive⟩

/-! ## Cache entries -/

def send304 (etag : Str) (encoding : Option Str) (vary : Bool) (cacheControl : Str) (keepAlive : Bool)
    (hdrs : Str) : Bytes :=
  str "HTTP/1.1 304 Not Modified\r\nETag: \"" ++ etag ++ str "\"\r\n" ++
  encodingLine encoding ++
  (if vary then str "Vary: Accept-Encoding\r\n" else []) ++
  str "Cache-Control: " ++ cacheControl ++
  str "\r\nConnection: " ++ connWord keepAlive ++ str "\r\n" ++ hdrs ++ str "\r\n"

/-- The variant an `Accept-Encoding` field gets: brotli, else gzip, else identity. -/
def pickVariant {α : Type} (acceptEnc : Str) (br gzip : Option α) (identity : α) : α :=
  match br.filter (fun _ => acceptsEncoding acceptEnc (str "br")) with
  | some v => v
  | none =>
    match gzip.filter (fun _ => acceptsEncoding acceptEnc (str "gzip")) with
    | some v => v
    | none => identity

/-- A prebuilt header with its `Connection` value flipped to close. The header is a `String`'s
bytes, so decoding it lossily is the identity. -/
def closeHeader (header : Bytes) : Bytes :=
  replaceFirst header (str "Connection: keep-alive") (str "Connection: close")

/-- An `If-None-Match` field that answers 304. -/
def notModified (inm etag : Str) : Bool := !inm.isEmpty && inmMatches inm etag

def serveMem (entry : MemEntry) (acceptEnc inm : Str) (keepAlive isHead : Bool) (policy : Policy) : Reply :=
  let v := pickVariant acceptEnc entry.br entry.gzip entry.identity
  if notModified inm v.etag then
    ⟨send304 v.etag v.encoding entry.vary entry.cacheControl keepAlive policy.securityHeaders, [], some keepAlive⟩
  else if keepAlive then
    ⟨if isHead then v.fullKa.take v.headerLen else v.fullKa, [], some keepAlive⟩
  else
    ⟨closeHeader (v.fullKa.take v.headerLen) ++ (if isHead then [] else v.fullKa.drop v.headerLen), [],
      some keepAlive⟩

/-- Copy `len` bytes from the results of successive reads: what was written, and whether every read
succeeded. A file that ends early ends the copy. -/
def streamBody : Nat → List (Option Bytes) → Bytes × Bool
  | 0, _ => ([], true)
  | _ + 1, [] => ([], true)
  | _ + 1, none :: _ => ([], false)
  | n + 1, some chunk :: reads =>
    if chunk.isEmpty then ([], true)
    else
      let (out, ok) := streamBody (n + 1 - chunk.length) reads
      (chunk.take (n + 1) ++ out, ok)

def serveDisk (fs : FileSys) (entry : DiskEntry) (acceptEnc inm : Str) (keepAlive isHead : Bool)
    (policy : Policy) : Reply :=
  let v := pickVariant acceptEnc entry.br entry.gzip entry.identity
  if notModified inm v.etag then
    ⟨send304 v.etag v.encoding entry.vary entry.cacheControl keepAlive policy.securityHeaders, [], some keepAlive⟩
  else
    let header := if keepAlive then v.headerKa else closeHeader v.headerKa
    if isHead then ⟨header, [], some keepAlive⟩
    else
      match fs.snapshot v.path with
      | none => ⟨sendError policy.errors.internalError false isHead, [v.path], some false⟩
      | some reads =>
        let (body, ok) := streamBody v.len reads
        ⟨header ++ body, [v.path], if ok then some keepAlive else none⟩

/-- Serve an entry of either backend. -/
def serveCached (fs : FileSys) (entry : Cached) (acceptEnc inm : Str) (keepAlive isHead : Bool)
    (policy : Policy) : Reply :=
  match entry with
  | .mem m => serveMem m acceptEnc inm keepAlive isHead policy
  | .disk d => serveDisk fs d acceptEnc inm keepAlive isHead policy

end BareServer
