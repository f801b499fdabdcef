/-
`handle_request` and what it calls (`main.rs`), with every index and every slice of the source as
the partial operation it is. A function that does neither is the one of the model.
-/
import BareServer.Lib.Slice
import BareServer.Serve.Handle

namespace BareServer.Checked

open BareServer.Lib

/-! ## Framing and negotiation -/

/-- The loop of `well_formed_head`, at index `i`. -/
def wellFormedFrom (head : Bytes) (i : Nat) : Except Panic Bool :=
  if i < head.length then do
    let c ← index head i
    if c == 13 then
      if head[i + 1]? != some 10 then return false
      else wellFormedFrom head (i + 2)
    else if c == 10 then return false
    else if c == 0x7F then return false
    else if c < 0x20 && c != 9 then return false
    else wellFormedFrom head (i + 1)
  else return true
termination_by head.length - i

def wellFormedHead (head : Bytes) : Except Panic Bool := wellFormedFrom head 0

/-- The text is only parsed once the head is well framed; parsing it indexes nothing. -/
def readRequest (head : Bytes) : Except Panic (Except Bool Request) :=
  match fromUtf8 head with
  | none => return .error false
  | some _ => do if !(← wellFormedHead head) then return .error false else return BareServer.readRequest head

def paramsAcceptable (acceptable : Bool) : List Str → Except Panic Bool
  | [] => return acceptable
  | param :: rest => do
    let param := trim param
    if ((getTo param 2).map fun p => eqIgnoreCase p (str "q=")).getD false then
      let q ← textFrom param 2
      paramsAcceptable (!isZeroQ (trim q)) rest
    else paramsAcceptable acceptable rest

def acceptsFrom (token : Str) (wildcard : Option Bool) : List Str → Except Panic Bool
  | [] => return wildcard.getD false
  | part :: rest => do
    let fields := part.splitOn 59
    let name := trim (fields.headD [])
    let acceptable ← paramsAcceptable true fields.tail
    if eqIgnoreCase name token then return acceptable
    else acceptsFrom token (if name == str "*" then some acceptable else wildcard) rest

def acceptsEncoding (field token : Str) : Except Panic Bool := acceptsFrom token none (field.splitOn 44)

def pickVariant {α : Type} (acceptEnc : Str) (br gzip : Option α) (identity : α) : Except Panic α := do
  match ← br.filterM fun _ => acceptsEncoding acceptEnc (str "br") with
  | some v => return v
  | none =>
    match ← gzip.filterM fun _ => acceptsEncoding acceptEnc (str "gzip") with
    | some v => return v
    | none => return identity

/-! ## Percent codec -/

/-- The loop of `percent_decode`, at index `i` with `out` decoded. -/
def percentDecodeFrom (b : Bytes) (i : Nat) (out : Bytes) : Except Panic (Option Bytes) :=
  if i < b.length then do
    let c ← index b i
    if c == 37 then
      if b.length ≤ i + 2 then return none
      else
        match hexval (← index b (i + 1)) with
        | none => return none
        | some hi =>
          match hexval (← index b (i + 2)) with
          | none => return none
          | some lo =>
            let v := hi <<< 4 ||| lo
            if isControl v then return none else percentDecodeFrom b (i + 3) (out ++ [v])
    else if isControl c then return none
    else percentDecodeFrom b (i + 1) (out ++ [c])
  else return some out
termination_by b.length - i

def percentDecode (s : Str) : Except Panic (Option Bytes) := percentDecodeFrom s 0 []

/-- The digits of an escape. -/
def hexDigits : Bytes := str "0123456789ABCDEF"

def encodeByte (b : UInt8) : Except Panic Str := do
  if isBare b then return [b]
  else return [37, ← index hexDigits (b >>> 4).toNat, ← index hexDigits (b &&& 0x0f).toNat]

def percentEncodePath : Str → Except Panic Str
  | [] => return []
  | b :: s => do return (← encodeByte b) ++ (← percentEncodePath s)

/-! ## Responses -/

def sendError (resp : StatusResponse) (keepAlive isHead : Bool) : Except Panic Bytes :=
  let p := if keepAlive then resp.ka else resp.close
  if isHead then sliceTo p.full p.headerLen else return p.full

def serveAcmeToken (fs : FileSys) (root : Path) (decoded : Str) (keepAlive isHead : Bool) (policy : Policy) :
    Except Panic Reply := do
  let tok ← textFrom decoded acmePrefix.length
  let wellFormed := !tok.isEmpty && decide (tok.length ≤ acmeTokenMaxLen) && tok.all isTokenByte
  let noSymlink (p : Path) : Bool := fs.isSymlink p == some false
  let wellKnown := join root (str ".well-known")
  let challenge := join wellKnown (str "acme-challenge")
  let path := join challenge tok
  let readable := wellFormed && noSymlink wellKnown && noSymlink challenge
  let opened := if readable then [path] else []
  match (if readable then readTokenFile fs path else none) with
  | none => return ⟨← sendError policy.errors.notFound keepAlive isHead, opened, some keepAlive⟩
  | some body =>
    let head :=
      str "HTTP/1.1 200 OK\r\n" ++
      str "Content-Type: text/plain; charset=utf-8\r\n" ++
      str "Content-Length: " ++ dec body.length ++ str "\r\n" ++
      str "Cache-Control: no-store\r\n" ++
      str "Connection: " ++ connWord keepAlive ++ str "\r\n" ++
      policy.securityHeaders ++ str "\r\n"
    return ⟨head ++ (if isHead then [] else body), opened, some keepAlive⟩

def serveMem (entry : MemEntry) (acceptEnc inm : Str) (keepAlive isHead : Bool) (policy : Policy) :
    Except Panic Reply := do
  let v ← pickVariant acceptEnc entry.br entry.gzip entry.identity
  if notModified inm v.etag then
    return ⟨send304 v.etag v.encoding entry.vary entry.cacheControl keepAlive policy.securityHeaders, [], some keepAlive⟩
  else if keepAlive then
    if isHead then return ⟨← sliceTo v.fullKa v.headerLen, [], some keepAlive⟩
    else return ⟨v.fullKa, [], some keepAlive⟩
  else
    let header := closeHeader (← sliceTo v.fullKa v.headerLen)
    if isHead then return ⟨header, [], some keepAlive⟩
    else return ⟨header ++ (← sliceFrom v.fullKa v.headerLen), [], some keepAlive⟩

/-- The length of the buffer of `stream_body`. -/
def bufLen : Nat := 64 * 1024

/-- A buffer after a read of `chunk` into it: the length of an array does not change. -/
def fill (buf chunk : Bytes) : Bytes := (chunk ++ buf.drop chunk.length).take buf.length

/-- The loop of `stream_body`. -/
def streamInto (buf : Bytes) : Nat → List (Option Bytes) → Except Panic (Bytes × Bool)
  | 0, _ => return ([], true)
  | _ + 1, [] => return ([], true)
  | _ + 1, none :: _ => return ([], false)
  | remaining + 1, some chunk :: reads =>
    if chunk.isEmpty then return ([], true)
    else do
      let buf := fill buf chunk
      let take := min chunk.length (remaining + 1)
      let written ← sliceTo buf take
      let (out, ok) ← streamInto buf (remaining + 1 - take) reads
      return (written ++ out, ok)

def streamBody (len : Nat) (reads : List (Option Bytes)) : Except Panic (Bytes × Bool) :=
  streamInto (List.replicate bufLen 0) len reads

def serveDisk (fs : FileSys) (entry : DiskEntry) (acceptEnc inm : Str) (keepAlive isHead : Bool)
    (policy : Policy) : Except Panic Reply := do
  let v ← pickVariant acceptEnc entry.br entry.gzip entry.identity
  if notModified inm v.etag then
    return ⟨send304 v.etag v.encoding entry.vary entry.cacheControl keepAlive policy.securityHeaders, [], some keepAlive⟩
  else
    let header := if keepAlive then v.headerKa else closeHeader v.headerKa
    if isHead then return ⟨header, [], some keepAlive⟩
    else
      match fs.snapshot v.path with
      | none => return ⟨← sendError policy.errors.internalError false isHead, [v.path], some false⟩
      | some reads =>
        let (body, ok) ← streamBody v.len reads
        return ⟨header ++ body, [v.path], if ok then some keepAlive else none⟩

def serveCached (fs : FileSys) (entry : Cached) (acceptEnc inm : Str) (keepAlive isHead : Bool)
    (policy : Policy) : Except Panic Reply :=
  match entry with
  | .mem m => serveMem m acceptEnc inm keepAlive isHead policy
  | .disk d => serveDisk fs d acceptEnc inm keepAlive isHead policy

/-! ## Requests -/

/-- An error reply. -/
def refuse (resp : StatusResponse) (keepAlive isHead : Bool) : Except Panic Reply := do
  return say (← sendError resp keepAlive isHead) keepAlive

def redirectFor (site : Site) (vhosts : Vhosts) (hostKey target path query decoded : Str)
    (redirectHttps : Bool) : Except Panic (Option Str) :=
  let isAcme := acmePrefix.isPrefixOf decoded
  let (scheme, authority) :=
    if redirectHttps && !site.forceSsl then (str "http", redirectAuthority hostKey vhosts.httpPort (str "80"))
    else (str "https", redirectAuthority hostKey vhosts.httpsPort (str "443"))
  if isAcme then return none
  else
    match site.redirects.resolve path with
    | some dest => return some (ruleLocation scheme authority dest query)
    | none =>
      match (if site.canonicalUrls then canonicalForm decoded else none) with
      | some canon => do return some (scheme ++ str "://" ++ authority ++ (← percentEncodePath canon) ++ query)
      | none =>
        if redirectHttps && site.forceSsl then
          return some (str "https://" ++ redirectAuthority hostKey vhosts.httpsPort (str "443") ++ target)
        else return none

def dirLocation (site : Site) (vhosts : Vhosts) (hostKey query decoded : Str) (redirectHttps : Bool) :
    Except Panic Str := do
  let (scheme, authority) :=
    if redirectHttps && !site.forceSsl then (str "http", redirectAuthority hostKey vhosts.httpPort (str "80"))
    else (str "https", redirectAuthority hostKey vhosts.httpsPort (str "443"))
  return scheme ++ str "://" ++ authority ++ (← percentEncodePath decoded) ++ str "/" ++ query

def serveContent (fs : FileSys) (site : Site) (vhosts : Vhosts) (req : Request) (hostKey query decoded : Str)
    (keepAlive redirectHttps : Bool) : Except Panic Reply :=
  let errs := site.policy.errors
  if acmePrefix.isPrefixOf decoded then
    match site.root with
    | some root => serveAcmeToken fs root decoded keepAlive req.isHead site.policy
    | none => refuse errs.notFound keepAlive req.isHead
  else
    match resolve site.cache.map decoded with
    | some (.entry e) => serveCached fs e req.fields.acceptEnc req.fields.inm keepAlive req.isHead site.policy
    | some .dirIndex => do
      return say (sendRedirect (← dirLocation site vhosts hostKey query decoded redirectHttps) keepAlive
        site.policy.securityHeaders) keepAlive
    | none => refuse errs.notFound keepAlive req.isHead

/-- The query of a request target, cut where its `?` was found. -/
def targetQuery (target : Str) : Except Panic Str :=
  match target.findIdx? (· == 63) with
  | none => return []
  | some p => textFrom target p

def handleSite (fs : FileSys) (site : Site) (vhosts : Vhosts) (req : Request) (hostKey : Str)
    (keepAlive redirectHttps : Bool) : Except Panic Reply := do
  let errs := site.policy.errors
  if req.method != str "GET" && !req.isHead then refuse errs.methodNotAllowed keepAlive req.isHead
  else
    let path := targetPath req.target
    if path.isEmpty || !(str "/").isPrefixOf path || decide (maxPathLen ≤ path.length) then
      refuse errs.badRequest false req.isHead
    else
      let query ← targetQuery req.target
      match (← percentDecode path).bind fromUtf8 with
      | none => refuse errs.badRequest false req.isHead
      | some decoded =>
        match ← redirectFor site vhosts hostKey req.target path query decoded redirectHttps with
        | some location => return say (sendRedirect location keepAlive site.policy.securityHeaders) keepAlive
        | none => serveContent fs site vhosts req hostKey query decoded keepAlive redirectHttps

def handleAccepted (fs : FileSys) (vhosts : Vhosts) (req : Request) (keepAlive redirectHttps : Bool)
    (sni : Option Str) : Except Panic Reply :=
  let hostKey := normalizeHost req.fields.hostHdr
  if (sni.map fun s => s != hostKey).getD false then refuse vhosts.errors.notFound keepAlive req.isHead
  else
    match vhosts.sites.lookup hostKey with
    | none => refuse vhosts.errors.notFound keepAlive req.isHead
    | some site => handleSite fs site vhosts req hostKey keepAlive redirectHttps

def handleRequest (fs : FileSys) (head : Bytes) (vhosts : Vhosts) (wantKa redirectHttps : Bool)
    (sni : Option Str) : Except Panic Reply := do
  match ← readRequest head with
  | .error isHead => refuse vhosts.errors.badRequest false isHead
  | .ok req => handleAccepted fs vhosts req (req.fields.keepAlive && wantKa) redirectHttps sni

end BareServer.Checked
