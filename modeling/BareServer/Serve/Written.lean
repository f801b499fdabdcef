/-
`handle_request`, what it calls and the request loop (`main.rs`), call by call: each `write_all` and each `flush` may
fail, and so may a read of a snapshot; a failure ends the response, and the loop with it. Where every call succeeds
these are the functions of the model.
-/
import BareServer.Lib.Wire
import BareServer.Serve.Loop

namespace BareServer.Written

open BareServer.Lib

/-! ## Responses -/

def sendError (resp : StatusResponse) (keepAlive isHead : Bool) : Io Unit := do
  writeAll (resp.bytes keepAlive isHead)
  flush

def sendRedirect (location : Str) (keepAlive : Bool) (hdrs : Str) : Io Unit := do
  writeAll (BareServer.sendRedirect location keepAlive hdrs)
  flush

def send304 (etag : Str) (encoding : Option Str) (vary : Bool) (cacheControl : Str) (keepAlive : Bool) (hdrs : Str) :
    Io Unit := do
  writeAll (BareServer.send304 etag encoding vary cacheControl keepAlive hdrs)
  flush

/-- An error, and what becomes of the connection. -/
def refuse (resp : StatusResponse) (keepAlive isHead : Bool) : Io Bool := do
  sendError resp keepAlive isHead
  return keepAlive

/-- A redirect, and what becomes of the connection. -/
def redirect (location : Str) (keepAlive : Bool) (hdrs : Str) : Io Bool := do
  sendRedirect location keepAlive hdrs
  return keepAlive

def serveAcmeToken (fs : FileSys) (root : Path) (decoded : Str) (keepAlive isHead : Bool) (policy : Policy) : Io Bool :=
  let tok := decoded.drop acmePrefix.length
  let wellFormed := !tok.isEmpty && decide (tok.length ≤ acmeTokenMaxLen) && tok.all isTokenByte
  let noSymlink (p : Path) : Bool := fs.isSymlink p == some false
  let wellKnown := join root (str ".well-known")
  let challenge := join wellKnown (str "acme-challenge")
  let path := join challenge tok
  let readable := wellFormed && noSymlink wellKnown && noSymlink challenge
  match (if readable then readTokenFile fs path else none) with
  | none => refuse policy.errors.notFound keepAlive isHead
  | some body => do
    let head :=
      str "HTTP/1.1 200 OK\r\n" ++
      str "Content-Type: text/plain; charset=utf-8\r\n" ++
      str "Content-Length: " ++ dec body.length ++ str "\r\n" ++
      str "Cache-Control: no-store\r\n" ++
      str "Connection: " ++ connWord keepAlive ++ str "\r\n" ++
      policy.securityHeaders ++ str "\r\n"
    writeAll (head ++ (if isHead then [] else body))
    flush
    return keepAlive

def serveMem (entry : MemEntry) (acceptEnc inm : Str) (keepAlive isHead : Bool) (policy : Policy) : Io Bool :=
  let v := pickVariant acceptEnc entry.br entry.gzip entry.identity
  if notModified inm v.etag then do
    send304 v.etag v.encoding entry.vary entry.cacheControl keepAlive policy.securityHeaders
    return keepAlive
  else if keepAlive then do
    writeAll (if isHead then v.fullKa.take v.headerLen else v.fullKa)
    flush
    return keepAlive
  else do
    writeAll (closeHeader (v.fullKa.take v.headerLen))
    if !isHead then writeAll (v.fullKa.drop v.headerLen)
    flush
    return keepAlive

/-- One write for each piece that is read. -/
def streamBody : Nat → List (Option Bytes) → Io Unit
  | 0, _ => return
  | _ + 1, [] => return
  | _ + 1, none :: _ => failure
  | n + 1, some chunk :: reads =>
    if chunk.isEmpty then return
    else do
      writeAll (chunk.take (n + 1))
      streamBody (n + 1 - chunk.length) reads

def serveDisk (fs : FileSys) (entry : DiskEntry) (acceptEnc inm : Str) (keepAlive isHead : Bool) (policy : Policy) :
    Io Bool :=
  let v := pickVariant acceptEnc entry.br entry.gzip entry.identity
  if notModified inm v.etag then do
    send304 v.etag v.encoding entry.vary entry.cacheControl keepAlive policy.securityHeaders
    return keepAlive
  else
    let header := if keepAlive then v.headerKa else closeHeader v.headerKa
    if isHead then do
      writeAll header
      flush
      return keepAlive
    else
      match fs.snapshot v.path with
      | none => refuse policy.errors.internalError false isHead
      | some reads => do
        writeAll header
        streamBody v.len reads
        flush
        return keepAlive

def serveCached (fs : FileSys) (entry : Cached) (acceptEnc inm : Str) (keepAlive isHead : Bool) (policy : Policy) : Io Bool :=
  match entry with
  | .mem m => serveMem m acceptEnc inm keepAlive isHead policy
  | .disk d => serveDisk fs d acceptEnc inm keepAlive isHead policy

/-! ## Requests -/

def serveContent (fs : FileSys) (site : Site) (vhosts : Vhosts) (req : Request) (hostKey query decoded : Str)
    (keepAlive redirectHttps : Bool) : Io Bool :=
  let errs := site.policy.errors
  if acmePrefix.isPrefixOf decoded then
    match site.root with
    | some root => serveAcmeToken fs root decoded keepAlive req.isHead site.policy
    | none => refuse errs.notFound keepAlive req.isHead
  else
    match resolve site.cache.map decoded with
    | some (.entry e) => serveCached fs e req.fields.acceptEnc req.fields.inm keepAlive req.isHead site.policy
    | some .dirIndex =>
      redirect (dirLocation site vhosts hostKey query decoded redirectHttps) keepAlive site.policy.securityHeaders
    | none => refuse errs.notFound keepAlive req.isHead

def handleSite (fs : FileSys) (site : Site) (vhosts : Vhosts) (req : Request) (hostKey : Str)
    (keepAlive redirectHttps : Bool) : Io Bool :=
  let errs := site.policy.errors
  if req.method != str "GET" && !req.isHead then refuse errs.methodNotAllowed keepAlive req.isHead
  else
    let path := targetPath req.target
    if path.isEmpty || !(str "/").isPrefixOf path || decide (maxPathLen ≤ path.length) then
      refuse errs.badRequest false req.isHead
    else
      let query := targetQuery req.target
      match (percentDecode path).bind fromUtf8 with
      | none => refuse errs.badRequest false req.isHead
      | some decoded =>
        match redirectFor site vhosts hostKey req.target path query decoded redirectHttps with
        | some location => redirect location keepAlive site.policy.securityHeaders
        | none => serveContent fs site vhosts req hostKey query decoded keepAlive redirectHttps

def handleAccepted (fs : FileSys) (vhosts : Vhosts) (req : Request) (keepAlive redirectHttps : Bool)
    (sni : Option Str) : Io Bool :=
  let hostKey := normalizeHost req.fields.hostHdr
  if (sni.map fun s => s != hostKey).getD false then refuse vhosts.errors.notFound keepAlive req.isHead
  else
    match vhosts.sites.lookup hostKey with
    | none => refuse vhosts.errors.notFound keepAlive req.isHead
    | some site => handleSite fs site vhosts req hostKey keepAlive redirectHttps

def handleRequest (fs : FileSys) (head : Bytes) (vhosts : Vhosts) (wantKa redirectHttps : Bool) (sni : Option Str) :
    Io Bool :=
  match readRequest head with
  | .error isHead => refuse vhosts.errors.badRequest false isHead
  | .ok req => handleAccepted fs vhosts req (req.fields.keepAlive && wantKa) redirectHttps sni

/-! ## The loop -/

/-- The last page of a connection, where there is one. -/
def sendLast (page : Bytes) : Io Unit :=
  if page.isEmpty then return
  else do
    writeAll page
    flush

/-- Requests `reqs` and on. What becomes of the last page is not looked at. -/
def serveFrom (fs : FileSys) (vhosts : Vhosts) (redirectHttps : Bool) (sni : Option Str) (dl : Deadlines) (reqs : Nat) :
    Nat → Bytes → List (Option Bytes) → Wire → Wire
  | 0, _, _, w => w
  | left + 1, buf, arrivals, w =>
    if dl.connection reqs then w
    else
      match awaitHead vhosts.errors (dl.head reqs) buf 0 arrivals with
      | .stop page => ((sendLast page).exec w).2
      | .head headEnd buf rest =>
        match (handleRequest fs (buf.take headEnd) vhosts (decide (reqs + 1 < maxReqsPerConn)) redirectHttps sni).exec w with
        | (some true, w) => serveFrom fs vhosts redirectHttps sni dl (reqs + 1) left (buf.drop headEnd) rest w
        | (_, w) => w

/-- What has been sent on one connection, whose calls go as `fates` says. -/
def serveOver (fs : FileSys) (vhosts : Vhosts) (buf : Bytes) (redirectHttps : Bool) (sni : Option Str) (dl : Deadlines)
    (arrivals : List (Option Bytes)) (fates : List (Option Nat)) : Bytes :=
  (serveFrom fs vhosts redirectHttps sni dl 0 maxReqsPerConn buf arrivals ⟨[], false, fates⟩).sent

/-! ## Against the model -/

/-- The calls of a program amount to a reply of the model. -/
def Replies (m : Io Bool) (r : Reply) : Prop := Gives m r.out r.result

theorem replies_refuse (resp : StatusResponse) (keepAlive isHead : Bool) :
    Replies (refuse resp keepAlive isHead) (say (BareServer.sendError resp keepAlive isHead) keepAlive) :=
  (gives_message (resp.bytes keepAlive isHead)).returning keepAlive

theorem replies_redirect (location : Str) (keepAlive : Bool) (hdrs : Str) :
    Replies (redirect location keepAlive hdrs) (say (BareServer.sendRedirect location keepAlive hdrs) keepAlive) :=
  (gives_message (BareServer.sendRedirect location keepAlive hdrs)).returning keepAlive

section

variable (fs : FileSys) (keepAlive isHead redirectHttps : Bool) (policy : Policy)

theorem replies_serveAcmeToken (root : Path) (decoded : Str) :
    Replies (serveAcmeToken fs root decoded keepAlive isHead policy)
      (BareServer.serveAcmeToken fs root decoded keepAlive isHead policy) := by
  unfold serveAcmeToken BareServer.serveAcmeToken
  simp only
  -- the token's name is well formed, below directories that are no symlinks
  generalize (_ && _ : Bool) = readable
  cases readable with
  | false => exact replies_refuse _ _ _
  | true =>
    generalize readTokenFile fs _ = body
    cases body with
    | none => exact replies_refuse _ _ _
    | some body => exact gives_answer _ keepAlive

theorem replies_serveMem (entry : MemEntry) (acceptEnc inm : Str) :
    Replies (serveMem entry acceptEnc inm keepAlive isHead policy)
      (BareServer.serveMem entry acceptEnc inm keepAlive isHead policy) := by
  unfold serveMem BareServer.serveMem
  simp only
  split
  · exact (gives_message _).returning keepAlive
  split
  · exact gives_answer _ keepAlive
  · -- the header and the body in two calls
    refine (gives_writeAll _).bind ?_
    cases isHead with
    | true => exact gives_flush.returning keepAlive
    | false => exact gives_answer _ keepAlive

theorem gives_streamBody (len : Nat) (reads : List (Option Bytes)) :
    Gives (streamBody len reads) (BareServer.streamBody len reads).1
      (if (BareServer.streamBody len reads).2 then some () else none) := by
  induction len, reads using BareServer.streamBody.induct with
  | case1 reads =>
    rw [streamBody, BareServer.streamBody]
    exact gives_pure ()
  | case2 n =>
    rw [streamBody, BareServer.streamBody]
    exact gives_pure ()
  | case3 n reads =>
    rw [streamBody, BareServer.streamBody]
    exact gives_failure
  | case4 n chunk reads hempty =>
    rw [streamBody, BareServer.streamBody, if_pos hempty, if_pos hempty]
    exact gives_pure ()
  | case5 n chunk reads hempty out ok hrest ih =>
    rw [streamBody, BareServer.streamBody, if_neg hempty, if_neg hempty, hrest]
    rw [hrest] at ih
    exact (gives_writeAll _).bind ih

theorem replies_serveDisk (entry : DiskEntry) (acceptEnc inm : Str) :
    Replies (serveDisk fs entry acceptEnc inm keepAlive isHead policy)
      (BareServer.serveDisk fs entry acceptEnc inm keepAlive isHead policy) := by
  unfold serveDisk BareServer.serveDisk
  simp only
  split
  · exact (gives_message _).returning keepAlive
  split
  · exact gives_answer _ keepAlive
  cases fs.snapshot (pickVariant acceptEnc entry.br entry.gzip entry.identity).path with
  | none => exact replies_refuse _ _ _
  | some reads =>
    have hbody := gives_streamBody (pickVariant acceptEnc entry.br entry.gzip entry.identity).len reads
    simp only
    generalize BareServer.streamBody (pickVariant acceptEnc entry.br entry.gzip entry.identity).len reads = body at hbody ⊢
    obtain ⟨body, _ | _⟩ := body
    · exact (gives_writeAll _).bind (hbody.bind_none _)
    · have hend := hbody.bind (f := fun _ => do flush; return keepAlive) (gives_flush.returning keepAlive)
      rw [List.append_nil] at hend
      exact (gives_writeAll _).bind hend

theorem replies_serveCached (entry : Cached) (acceptEnc inm : Str) :
    Replies (serveCached fs entry acceptEnc inm keepAlive isHead policy)
      (BareServer.serveCached fs entry acceptEnc inm keepAlive isHead policy) := by
  cases entry with
  | mem m => exact replies_serveMem keepAlive isHead policy m acceptEnc inm
  | disk d => exact replies_serveDisk fs keepAlive isHead policy d acceptEnc inm

theorem replies_serveContent (site : Site) (vhosts : Vhosts) (req : Request) (hostKey query decoded : Str) :
    Replies (serveContent fs site vhosts req hostKey query decoded keepAlive redirectHttps)
      (BareServer.serveContent fs site vhosts req hostKey query decoded keepAlive redirectHttps) := by
  unfold serveContent BareServer.serveContent
  simp only
  split
  · cases site.root with
    | none => exact replies_refuse _ _ _
    | some root => exact replies_serveAcmeToken fs keepAlive req.isHead site.policy root decoded
  · cases resolve site.cache.map decoded with
    | none => exact replies_refuse _ _ _
    | some r =>
      cases r with
      | entry e => exact replies_serveCached fs keepAlive req.isHead site.policy e _ _
      | dirIndex => exact replies_redirect _ _ _

theorem replies_handleSite (site : Site) (vhosts : Vhosts) (req : Request) (hostKey : Str) :
    Replies (handleSite fs site vhosts req hostKey keepAlive redirectHttps)
      (BareServer.handleSite fs site vhosts req hostKey keepAlive redirectHttps) := by
  unfold handleSite BareServer.handleSite
  simp only
  split
  · exact replies_refuse _ _ _
  split
  · exact replies_refuse _ _ _
  cases (percentDecode (targetPath req.target)).bind fromUtf8 with
  | none => exact replies_refuse _ _ _
  | some decoded =>
    simp only
    cases redirectFor site vhosts hostKey req.target (targetPath req.target) (targetQuery req.target) decoded redirectHttps with
    | some location => exact replies_redirect _ _ _
    | none => exact replies_serveContent fs keepAlive redirectHttps site vhosts req hostKey _ decoded

theorem replies_handleAccepted (vhosts : Vhosts) (req : Request) (sni : Option Str) :
    Replies (handleAccepted fs vhosts req keepAlive redirectHttps sni)
      (BareServer.handleAccepted fs vhosts req keepAlive redirectHttps sni) := by
  unfold handleAccepted BareServer.handleAccepted
  simp only
  split
  · exact replies_refuse _ _ _
  · cases vhosts.sites.lookup (normalizeHost req.fields.hostHdr) with
    | none => exact replies_refuse _ _ _
    | some site => exact replies_handleSite fs keepAlive redirectHttps site vhosts req _

/-- Handling a request writes what the model says, and returns what it says, or is cut short. -/
theorem replies_handleRequest (head : Bytes) (vhosts : Vhosts) (wantKa : Bool) (sni : Option Str) :
    Replies (handleRequest fs head vhosts wantKa redirectHttps sni)
      (BareServer.handleRequest fs head vhosts wantKa redirectHttps sni) := by
  unfold handleRequest BareServer.handleRequest
  cases readRequest head with
  | error isHead => exact replies_refuse _ _ _
  | ok req => exact replies_handleAccepted fs _ redirectHttps vhosts req sni

end

theorem gives_sendLast (page : Bytes) : Gives (sendLast page) page (some ()) := by
  unfold sendLast
  split
  · rename_i hempty
    rw [List.isEmpty_iff.1 hempty]
    exact gives_pure ()
  · exact gives_message page

/-- Where every call succeeds, what is sent is what the model writes. -/
theorem serveFrom_unbroken {fs : FileSys} {vhosts : Vhosts} {redirectHttps : Bool} {sni : Option Str} {dl : Deadlines}
    (left reqs : Nat) (buf : Bytes) (arrivals : List (Option Bytes)) {w : Wire} (hw : ∀ n, some n ∉ w.fates) :
    (serveFrom fs vhosts redirectHttps sni dl reqs left buf arrivals w).sent =
      w.sent ++ BareServer.serveFrom fs vhosts redirectHttps sni dl reqs left buf arrivals := by
  induction left generalizing reqs buf arrivals w with
  | zero => exact (List.append_nil _).symm
  | succ left ih =>
    unfold serveFrom BareServer.serveFrom
    split
    · exact (List.append_nil _).symm
    cases awaitHead vhosts.errors (dl.head reqs) buf 0 arrivals with
    | stop page =>
      obtain ⟨fates, -, hexec⟩ := (gives_sendLast page).unbroken hw
      simp only [hexec]
    | head headEnd buf rest =>
      simp only
      obtain ⟨fates, hfates, hexec⟩ := (replies_handleRequest fs redirectHttps (buf.take headEnd) vhosts
        (decide (reqs + 1 < maxReqsPerConn)) sni).unbroken hw
      rw [hexec]
      generalize BareServer.handleRequest fs (buf.take headEnd) vhosts (decide (reqs + 1 < maxReqsPerConn)) redirectHttps sni = r
      obtain ⟨out, opened, _ | _ | _⟩ := r
      · simp
      · simp
      · simp only [if_true]
        rw [ih (w := ⟨w.sent ++ out, w.failed, fates⟩) (reqs + 1) _ rest fun n hn => hw n (hfates.subset hn), List.append_assoc]

theorem serveOver_unbroken (fs : FileSys) (vhosts : Vhosts) (buf : Bytes) (redirectHttps : Bool) (sni : Option Str)
    (dl : Deadlines) (arrivals : List (Option Bytes)) {fates : List (Option Nat)} (hfates : ∀ n, some n ∉ fates) :
    serveOver fs vhosts buf redirectHttps sni dl arrivals fates = BareServer.serveOver fs vhosts buf redirectHttps sni dl arrivals :=
  serveFrom_unbroken _ _ _ _ (w := ⟨[], false, fates⟩) hfates

end BareServer.Written
