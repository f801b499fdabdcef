/-
`handle_request` (`main.rs`): one buffered request head against the virtual-host table.
-/
import BareServer.Serve.Send

namespace BareServer

open BareServer.Lib

def maxPathLen : Nat := 1024

/-- A reply that opens no file and returns the keep-alive value it states. -/
def say (out : Bytes) (keepAlive : Bool) : Reply := ⟨out, [], some keepAlive⟩

/-- The Location of a rule's expanded target: scheme and authority for a bare path, the query unless
the target has one. -/
def ruleLocation (scheme authority dest query : Str) : Str :=
  let absolute := (str "https://").isPrefixOf dest || (str "http://").isPrefixOf dest
  match absolute, dest.contains 63 with
  | true, true => dest
  | true, false => dest ++ query
  | false, true => scheme ++ str "://" ++ authority ++ dest
  | false, false => scheme ++ str "://" ++ authority ++ dest ++ query

/-- What a redirecting stage answers, when it does: a configured rule, the canonical fold, the
upgrade to HTTPS, in this order. The ACME prefix is exempt from all three. -/
def redirectFor (site : Site) (vhosts : Vhosts) (hostKey target path query decoded : Str)
    (redirectHttps : Bool) : Option Str :=
  let isAcme := acmePrefix.isPrefixOf decoded
  let (scheme, authority) :=
    if redirectHttps && !site.forceSsl then (str "http", redirectAuthority hostKey vhosts.httpPort (str "80"))
    else (str "https", redirectAuthority hostKey vhosts.httpsPort (str "443"))
  if isAcme then none
  else
    match site.redirects.resolve path with
    | some dest => some (ruleLocation scheme authority dest query)
    | none =>
      match (if site.canonicalUrls then canonicalForm decoded else none) with
      | some canon => some (scheme ++ str "://" ++ authority ++ percentEncodePath canon ++ query)
      | none =>
        if redirectHttps && site.forceSsl then
          some (str "https://" ++ redirectAuthority hostKey vhosts.httpsPort (str "443") ++ target)
        else none

/-- The directory redirect: the decoded path re-encoded, with a trailing slash. -/
def dirLocation (site : Site) (vhosts : Vhosts) (hostKey query decoded : Str) (redirectHttps : Bool) : Str :=
  let (scheme, authority) :=
    if redirectHttps && !site.forceSsl then (str "http", redirectAuthority hostKey vhosts.httpPort (str "80"))
    else (str "https", redirectAuthority hostKey vhosts.httpsPort (str "443"))
  scheme ++ str "://" ++ authority ++ percentEncodePath decoded ++ str "/" ++ query

/-- Past the redirects: the token read live, or the cache. -/
def serveContent (fs : FileSys) (site : Site) (vhosts : Vhosts) (req : Request) (hostKey query decoded : Str)
    (keepAlive redirectHttps : Bool) : Reply :=
  let errs := site.policy.errors
  if acmePrefix.isPrefixOf decoded then
    match site.root with
    | some root => serveAcmeToken fs root decoded keepAlive req.isHead site.policy
    | none => say (sendError errs.notFound keepAlive req.isHead) keepAlive
  else
    match resolve site.cache.map decoded with
    | some (.entry e) => serveCached fs e req.fields.acceptEnc req.fields.inm keepAlive req.isHead site.policy
    | some .dirIndex =>
      say (sendRedirect (dirLocation site vhosts hostKey query decoded redirectHttps) keepAlive
        site.policy.securityHeaders) keepAlive
    | none => say (sendError errs.notFound keepAlive req.isHead) keepAlive

/-- The path of a request target, without its query. -/
def targetPath (target : Str) : Str := target.takeWhile (· != 63)

/-- The query of a request target, with its `?`. -/
def targetQuery (target : Str) : Str := target.dropWhile (· != 63)

/-- A request of a known site. -/
def handleSite (fs : FileSys) (site : Site) (vhosts : Vhosts) (req : Request) (hostKey : Str)
    (keepAlive redirectHttps : Bool) : Reply :=
  let errs := site.policy.errors
  if req.method != str "GET" && !req.isHead then
    say (sendError errs.methodNotAllowed keepAlive req.isHead) keepAlive
  else
    let path := targetPath req.target
    if path.isEmpty || !(str "/").isPrefixOf path || decide (maxPathLen ≤ path.length) then
      say (sendError errs.badRequest false req.isHead) false
    else
      let query := targetQuery req.target
      match (percentDecode path).bind fromUtf8 with
      | none => say (sendError errs.badRequest false req.isHead) false
      | some decoded =>
        match redirectFor site vhosts hostKey req.target path query decoded redirectHttps with
        | some location => say (sendRedirect location keepAlive site.policy.securityHeaders) keepAlive
        | none => serveContent fs site vhosts req hostKey query decoded keepAlive redirectHttps

/-- An accepted request: the host must be configured and agree with the SNI. -/
def handleAccepted (fs : FileSys) (vhosts : Vhosts) (req : Request) (keepAlive redirectHttps : Bool)
    (sni : Option Str) : Reply :=
  let hostKey := normalizeHost req.fields.hostHdr
  if (sni.map fun s => s != hostKey).getD false then
    say (sendError vhosts.errors.notFound keepAlive req.isHead) keepAlive
  else
    match vhosts.sites.lookup hostKey with
    | none => say (sendError vhosts.errors.notFound keepAlive req.isHead) keepAlive
    | some site => handleSite fs site vhosts req hostKey keepAlive redirectHttps

def handleRequest (fs : FileSys) (head : Bytes) (vhosts : Vhosts) (wantKa redirectHttps : Bool)
    (sni : Option Str) : Reply :=
  match readRequest head with
  | .error isHead => say (sendError vhosts.errors.badRequest false isHead) false
  | .ok req => handleAccepted fs vhosts req (req.fields.keepAlive && wantKa) redirectHttps sni

end BareServer
