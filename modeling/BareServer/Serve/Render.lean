/-
The bytes of every response builder as the rendering of one response: the precomputed statuses, the
redirects, the 304s, the two kinds of 200, and the close form of a prebuilt header.
-/
import BareServer.Serve.Handle
import BareServer.Cache.BuildSpec
import BareServer.Lib.Http

namespace BareServer

open BareServer.Lib

/-! ## Fields -/

/-- The security fields of a header policy. -/
def HeaderConfig.fields (h : HeaderConfig) : List (Str × Str) :=
  [(str "X-Content-Type-Options", str "nosniff"), (str "X-Frame-Options", str "SAMEORIGIN"),
    (str "Referrer-Policy", str "strict-origin-when-cross-origin"),
    (str "Permissions-Policy", str "camera=(), microphone=(), geolocation=()")] ++
  (if h.hstsMaxAge > 0 then
    [(str "Strict-Transport-Security", str "max-age=" ++ dec h.hstsMaxAge ++
      (if h.hstsIncludeSubdomains then str "; includeSubDomains" else []) ++
      (if h.hstsPreload then str "; preload" else []))]
  else []) ++
  (if h.csp.isEmpty then [] else [(str "Content-Security-Policy", h.csp)])

theorem securityTexts :
    str "X-Content-Type-Options: nosniff\r\n" = renderField (str "X-Content-Type-Options", str "nosniff") ∧
    str "X-Frame-Options: SAMEORIGIN\r\n" = renderField (str "X-Frame-Options", str "SAMEORIGIN") ∧
    str "Referrer-Policy: strict-origin-when-cross-origin\r\n" =
      renderField (str "Referrer-Policy", str "strict-origin-when-cross-origin") ∧
    str "Permissions-Policy: camera=(), microphone=(), geolocation=()\r\n" =
      renderField (str "Permissions-Policy", str "camera=(), microphone=(), geolocation=()") ∧
    str "Strict-Transport-Security: max-age=" = str "Strict-Transport-Security" ++ str ": " ++ str "max-age=" ∧
    str "Content-Security-Policy: " = str "Content-Security-Policy" ++ str ": " := by
  decide

theorem render_eq (h : HeaderConfig) : h.render = h.fields.flatMap renderField := by
  obtain ⟨e1, e2, e3, e4, e5, e6⟩ := securityTexts
  rw [HeaderConfig.render, HeaderConfig.fields, e1, e2, e3, e4, e5, e6]
  by_cases hm : h.hstsMaxAge > 0 <;> by_cases hc : h.csp.isEmpty = true <;>
    simp only [hm, hc, if_true, if_false, Bool.false_eq_true, List.flatMap_append, List.flatMap_cons,
      List.flatMap_nil, List.append_nil, List.append_assoc, renderField]

/-- The names of every field this server writes, but for Content-Length. -/
def plainNames : List Str :=
  [str "Content-Type", str "Cache-Control", str "Connection", str "Allow", str "Location", str "ETag",
    str "Content-Encoding", str "Vary", str "X-Content-Type-Options", str "X-Frame-Options", str "Referrer-Policy",
    str "Permissions-Policy", str "Strict-Transport-Security", str "Content-Security-Policy"]

/-- Fields that do not bear on framing, with clean values. -/
def Plain (fields : List (Str × Str)) : Prop := ∀ nv ∈ fields, nv.1 ∈ plainNames ∧ Clean nv.2

/-- Is a name a word of letters and hyphens? -/
def isWord (n : Str) : Bool := !n.isEmpty && n.all fun b => isAlpha b || b == 45

theorem isWord_spec {n : Str} (h : isWord n = true) : n ≠ [] ∧ ∀ b ∈ n, isAlpha b = true ∨ b = 45 := by
  simpa [isWord] using h

theorem plainNames_word : ∀ n ∈ plainNames, isWord n = true := by decide

theorem plainNames_unframed : ∀ n ∈ plainNames,
    eqIgnoreCase n (str "content-length") = false ∧ eqIgnoreCase n (str "transfer-encoding") = false := by
  decide

theorem plain_nil : Plain [] := nofun

theorem Plain.cons {name value : Str} {fields : List (Str × Str)} (hn : name ∈ plainNames) (hv : Clean value)
    (h : Plain fields) : Plain ((name, value) :: fields) := by
  rintro nv (_ | ⟨_, hnv⟩)
  · exact ⟨hn, hv⟩
  · exact h nv hnv

/-- The fields written with a fixed value. -/
def fixedFields : List (Str × Str) :=
  [(str "Content-Type", str "text/html; charset=utf-8"), (str "Content-Type", str "text/plain; charset=utf-8"),
    (str "Cache-Control", str "no-store"), (str "Connection", str "keep-alive"), (str "Connection", str "close"),
    (str "Allow", str "GET, HEAD"), (str "Vary", str "Accept-Encoding"), (str "X-Content-Type-Options", str "nosniff"),
    (str "X-Frame-Options", str "SAMEORIGIN"), (str "Referrer-Policy", str "strict-origin-when-cross-origin"),
    (str "Permissions-Policy", str "camera=(), microphone=(), geolocation=()")]

theorem plain_fixedFields : ∀ nv ∈ fixedFields, nv.1 ∈ plainNames ∧ Clean nv.2 := by decide

theorem Plain.fixed {nv : Str × Str} {fields : List (Str × Str)} (hnv : nv ∈ fixedFields) (h : Plain fields) :
    Plain (nv :: fields) := by
  rintro x (_ | ⟨_, hx⟩)
  · exact plain_fixedFields nv hnv
  · exact h x hx

/-- The pieces of text written around variable parts. -/
theorem clean_pieces : Clean (str "max-age=") ∧ Clean (str "; includeSubDomains") ∧ Clean (str "; preload") ∧
    Clean (str "\"") ∧ Clean (str "public, max-age=") ∧ Clean (str ", immutable") ∧ Clean (str ", must-revalidate") ∧
    Clean (str "OK") ∧ Clean (str "Moved Permanently") ∧ Clean (str "Not Modified") ∧ Clean (str "0") := by
  decide

theorem Plain.append {a b : List (Str × Str)} (ha : Plain a) (hb : Plain b) : Plain (a ++ b) :=
  fun nv hnv => (List.mem_append.1 hnv).elim (ha nv) (hb nv)

theorem Plain.ite {c : Bool} {a : List (Str × Str)} (ha : c = true → Plain a) : Plain (if c then a else []) := by
  split
  · rename_i hc; exact ha hc
  · exact plain_nil

theorem Plain.clean {fields : List (Str × Str)} (h : Plain fields) : Response.CleanFields fields := by
  have hword := fun nv hnv => isWord_spec (plainNames_word nv.1 (h nv hnv).1)
  exact ⟨fun nv hnv => (hword nv hnv).1, fun nv hnv => (hword nv hnv).2, fun nv hnv => (h nv hnv).2⟩

theorem Plain.unframed {fields : List (Str × Str)} (h : Plain fields) {name : Str}
    (hn : name = str "content-length" ∨ name = str "transfer-encoding") :
    (fields.filter fun nv => eqIgnoreCase nv.1 name) = [] := by
  rw [List.filter_eq_nil_iff]
  intro nv hnv
  have hu := plainNames_unframed nv.1 (h nv hnv).1
  rcases hn with rfl | rfl
  · simp [hu.1]
  · simp [hu.2]

theorem plain_fields {h : HeaderConfig} (hc : Clean h.csp) : Plain h.fields := by
  obtain ⟨h1, h2, h3, -⟩ := clean_pieces
  unfold HeaderConfig.fields
  refine .append (.append ?_ ?_) ?_
  · exact .fixed (by simp [fixedFields]) <| .fixed (by simp [fixedFields]) <| .fixed (by simp [fixedFields]) <|
      .fixed (by simp [fixedFields]) plain_nil
  · split
    · refine .cons (by simp [plainNames]) ?_ plain_nil
      simp only [clean_append]
      refine ⟨⟨⟨h1, clean_dec _⟩, ?_⟩, ?_⟩ <;> split <;> first | assumption | exact clean_nil
    · exact plain_nil
  · split
    · exact plain_nil
    · exact .cons (by simp [plainNames]) hc plain_nil

theorem lengthName : isWord (str "Content-Length") = true ∧
    eqIgnoreCase (str "Content-Length") (str "transfer-encoding") = false ∧
    eqIgnoreCase (str "Content-Length") (str "content-length") = true := by
  decide

/-- One Content-Length among plain fields frames a response. -/
theorem wellFramed_length {code : Nat} {reason v : Str} {pre post : List (Str × Str)} {body : Bytes} {noBody : Bool}
    (hr : Clean reason) (hpre : Plain pre) (hpost : Plain post) (hv : Clean v)
    (hnone : code = 301 ∨ code = 304 ∨ noBody = true → body = [])
    (hlen : ¬ (code = 301 ∨ code = 304 ∨ noBody = true) → v = dec body.length) :
    Response.WellFramed ⟨code, reason, pre ++ (str "Content-Length", v) :: post, body⟩ noBody := by
  obtain ⟨hword, hte, hcl⟩ := lengthName
  refine ⟨hr, ?_, ?_, hnone, fun h => ?_⟩
  · exact Response.cleanFields_append.2 ⟨hpre.clean, .cons (isWord_spec hword) hv hpost.clean⟩
  · rw [Response.named, List.filter_append, List.filter_cons, hpre.unframed (.inr rfl), hpost.unframed (.inr rfl)]
    simp [hte]
  · rw [Response.named, List.filter_append, List.filter_cons, hpre.unframed (.inl rfl), hpost.unframed (.inl rfl)]
    simp [hcl, hlen h]

/-- Plain fields alone frame a 304. -/
theorem wellFramed_notModified {reason : Str} {fields : List (Str × Str)} {noBody : Bool} (hr : Clean reason)
    (hf : Plain fields) : Response.WellFramed ⟨304, reason, fields, []⟩ noBody :=
  ⟨hr, hf.clean, hf.unframed (.inr rfl), fun _ => rfl, fun h => absurd (.inr (.inl rfl)) h⟩

/-! ## Statuses and redirects -/

/-- The field of a `Connection` form. -/
def connField (keepAlive : Bool) : Str × Str := (str "Connection", connWord keepAlive)

theorem Plain.conn {keepAlive : Bool} {fields : List (Str × Str)} (h : Plain fields) :
    Plain (connField keepAlive :: fields) := by
  cases keepAlive <;> exact .fixed (by simp [fixedFields, connField, connWord]) h

def statusResponse (code : Nat) (reason : Str) (h : HeaderConfig) (keepAlive isHead : Bool) : Response where
  code
  reason
  fields := [(str "Content-Type", str "text/html; charset=utf-8")] ++
    (str "Content-Length", dec (statusBody code reason).length) ::
      ([(str "Cache-Control", str "no-store"), connField keepAlive] ++
        (if code == 405 then [(str "Allow", str "GET, HEAD")] else []) ++ h.fields)
  body := if isHead then [] else statusBody code reason

theorem statusTexts :
    str "Content-Type: text/html; charset=utf-8\r\n" =
      renderField (str "Content-Type", str "text/html; charset=utf-8") ∧
    str "Content-Length: " = str "Content-Length" ++ str ": " ∧
    str "Cache-Control: no-store\r\n" = renderField (str "Cache-Control", str "no-store") ∧
    str "Connection: " = str "Connection" ++ str ": " ∧
    str "Allow: GET, HEAD\r\n" = renderField (str "Allow", str "GET, HEAD") := by
  decide

theorem statusHead_eq (code : Nat) (reason : Str) (h : HeaderConfig) (keepAlive isHead : Bool) :
    statusHead code reason h.render (connWord keepAlive) = (statusResponse code reason h keepAlive isHead).head := by
  obtain ⟨e1, e2, e3, e4, e5⟩ := statusTexts
  rw [statusHead, render_eq, e1, e2, e3, e4, e5]
  cases h405 : code == 405 <;>
    simp only [h405, statusResponse, Response.head, Response.lines, connField, if_true, if_false, Bool.false_eq_true,
      List.flatMap_append, List.flatMap_cons, List.flatMap_nil, List.append_nil, List.append_assoc, renderField]

theorem sendError_render (code : Nat) (reason : Str) (h : HeaderConfig) (keepAlive isHead : Bool) :
    sendError (buildStatus code reason h.render) keepAlive isHead =
      (statusResponse code reason h keepAlive isHead).render := by
  rw [Response.render, ← statusHead_eq]
  unfold sendError StatusResponse.bytes buildStatus statusResponse connWord
  cases keepAlive <;> cases isHead <;> simp only [if_true, if_false, Bool.false_eq_true, List.take_left, List.append_nil]

theorem statusResponse_wellFramed {code : Nat} {reason : Str} {h : HeaderConfig} {keepAlive isHead : Bool}
    (hcode : code ≠ 301 ∧ code ≠ 304) (hr : Clean reason) (hc : Clean h.csp) :
    (statusResponse code reason h keepAlive isHead).WellFramed isHead := by
  refine wellFramed_length hr (.fixed (by simp [fixedFields]) plain_nil) ?_ (clean_dec _) ?_ ?_
  · refine .append (.append ?_ (.ite fun _ => ?_)) (plain_fields hc)
    · exact .fixed (by simp [fixedFields]) (.conn plain_nil)
    · exact .fixed (by simp [fixedFields]) plain_nil
  · rintro (h | h | rfl)
    · exact absurd h hcode.1
    · exact absurd h hcode.2
    · rfl
  · intro h
    have : isHead = false := by simpa [hcode.1, hcode.2] using h
    rw [this]
    rfl

def redirectResponse (location : Str) (keepAlive : Bool) (h : HeaderConfig) : Response where
  code := 301
  reason := str "Moved Permanently"
  fields := [(str "Location", location)] ++ (str "Content-Length", str "0") :: (connField keepAlive :: h.fields)
  body := []

theorem redirectTexts :
    str "HTTP/1.1 301 Moved Permanently\r\n" =
      str "HTTP/1.1 " ++ dec 301 ++ str " " ++ str "Moved Permanently" ++ str "\r\n" ∧
    str "Location: " = str "Location" ++ str ": " ∧
    str "Content-Length: 0\r\n" = renderField (str "Content-Length", str "0") ∧
    str "Connection: " = str "Connection" ++ str ": " := by
  decide

theorem sendRedirect_render (location : Str) (keepAlive : Bool) (h : HeaderConfig) :
    sendRedirect location keepAlive h.render = (redirectResponse location keepAlive h).render := by
  obtain ⟨e1, e2, e3, e4⟩ := redirectTexts
  rw [sendRedirect, render_eq, e1, e2, e3, e4]
  simp only [redirectResponse, Response.render, Response.head, Response.lines, connField, List.flatMap_append,
    List.flatMap_cons, List.flatMap_nil, List.append_nil, List.append_assoc, renderField]

theorem redirectResponse_wellFramed {location : Str} {keepAlive noBody : Bool} {h : HeaderConfig} (hl : Clean location)
    (hc : Clean h.csp) : (redirectResponse location keepAlive h).WellFramed noBody := by
  obtain ⟨-, -, -, -, -, -, -, -, hreason, -, hzero⟩ := clean_pieces
  exact wellFramed_length hreason (.cons (by simp [plainNames]) hl plain_nil) (.conn (plain_fields hc)) hzero
    (fun _ => rfl) fun h => absurd (.inl rfl) h

/-! ## Tokens -/

def tokenResponse (body : Bytes) (keepAlive isHead : Bool) (h : HeaderConfig) : Response where
  code := 200
  reason := str "OK"
  fields := [(str "Content-Type", str "text/plain; charset=utf-8")] ++ (str "Content-Length", dec body.length) ::
    ([(str "Cache-Control", str "no-store"), connField keepAlive] ++ h.fields)
  body := if isHead then [] else body

theorem tokenTexts :
    str "HTTP/1.1 200 OK\r\n" = str "HTTP/1.1 " ++ dec 200 ++ str " " ++ str "OK" ++ str "\r\n" ∧
    str "Content-Type: text/plain; charset=utf-8\r\n" =
      renderField (str "Content-Type", str "text/plain; charset=utf-8") ∧
    str "Content-Length: " = str "Content-Length" ++ str ": " ∧
    str "Cache-Control: no-store\r\n" = renderField (str "Cache-Control", str "no-store") ∧
    str "Connection: " = str "Connection" ++ str ": " := by
  decide

/-- The two answers of the token path, to a GET and to a HEAD alike: the site's 404, or the token. -/
theorem serveAcmeToken_either (fs : FileSys) (root : Path) (decoded : Str) (keepAlive : Bool) (policy : Policy)
    (h : HeaderConfig) (hsec : policy.securityHeaders = h.render) :
    (∀ isHead, (serveAcmeToken fs root decoded keepAlive isHead policy).out =
      sendError policy.errors.notFound keepAlive isHead) ∨
    ∃ body, ∀ isHead, (serveAcmeToken fs root decoded keepAlive isHead policy).out =
      (tokenResponse body keepAlive isHead h).render := by
  obtain ⟨e1, e2, e3, e4, e5⟩ := tokenTexts
  unfold serveAcmeToken
  simp only
  split
  · exact .inl fun _ => rfl
  · rename_i body _
    refine .inr ⟨body, fun isHead => ?_⟩
    simp only [hsec, render_eq, e1, e2, e3, e4, e5, tokenResponse, Response.render, Response.head, Response.lines,
      connField, List.flatMap_cons, List.append_assoc, List.nil_append, List.cons_append, renderField]

theorem serveAcmeToken_out (fs : FileSys) (root : Path) (decoded : Str) (keepAlive isHead : Bool) (policy : Policy)
    (h : HeaderConfig) (hsec : policy.securityHeaders = h.render) :
    (serveAcmeToken fs root decoded keepAlive isHead policy).out = sendError policy.errors.notFound keepAlive isHead ∨
    ∃ body, (serveAcmeToken fs root decoded keepAlive isHead policy).out =
      (tokenResponse body keepAlive isHead h).render :=
  (serveAcmeToken_either fs root decoded keepAlive policy h hsec).imp (fun e => e isHead) fun ⟨body, e⟩ => ⟨body, e isHead⟩

theorem tokenResponse_wellFramed {body : Bytes} {keepAlive isHead : Bool} {h : HeaderConfig} (hc : Clean h.csp) :
    (tokenResponse body keepAlive isHead h).WellFramed isHead := by
  obtain ⟨-, -, -, -, -, -, -, hreason, -⟩ := clean_pieces
  refine wellFramed_length hreason (.fixed (by simp [fixedFields]) plain_nil) ?_ (clean_dec _) ?_ ?_
  · exact .append (.fixed (by simp [fixedFields]) (.conn plain_nil)) (plain_fields hc)
  · rintro (h | h | rfl)
    · cases h
    · cases h
    · rfl
  · intro h
    have : isHead = false := by simpa using h
    rw [this]
    rfl

/-! ## Cached content -/

/-- The fields a 200 and its 304 share: the validator, the coding and the cache policy. -/
def validatorFields (etag : Str) (encoding : Option Str) (vary : Bool) (cacheControl : Str) : List (Str × Str) :=
  [(str "ETag", str "\"" ++ etag ++ str "\"")] ++ (encoding.toList.map fun enc => (str "Content-Encoding", enc)) ++
  (if vary then [(str "Vary", str "Accept-Encoding")] else []) ++ [(str "Cache-Control", cacheControl)]

theorem cachedTexts :
    str "ETag: \"" = str "ETag" ++ str ": " ++ str "\"" ∧
    str "\"\r\n" = str "\"" ++ str "\r\n" ∧
    str "Content-Encoding: " = str "Content-Encoding" ++ str ": " ∧
    str "Vary: Accept-Encoding\r\n" = renderField (str "Vary", str "Accept-Encoding") ∧
    str "Cache-Control: " = str "Cache-Control" ++ str ": " ∧
    str "HTTP/1.1 304 Not Modified\r\nETag: \"" =
      str "HTTP/1.1 " ++ dec 304 ++ str " " ++ str "Not Modified" ++ str "\r\n" ++ str "ETag: \"" ∧
    str "\r\nConnection: " = str "\r\n" ++ str "Connection" ++ str ": " ∧
    str "HTTP/1.1 200 OK\r\nContent-Type: " = str "HTTP/1.1 " ++ dec 200 ++ str " " ++ str "OK" ++
      str "\r\n" ++ str "Content-Type" ++ str ": " ∧
    str "\r\nContent-Length: " = str "\r\n" ++ str "Content-Length" ++ str ": " ∧
    str "\r\nETag: \"" = str "\r\n" ++ str "ETag: \"" ∧
    str "Connection: " = str "Connection" ++ str ": " ∧
    str "Connection: keep-alive" = str "Connection: " ++ str "keep-alive" := by
  decide

theorem validatorFields_eq (etag : Str) (encoding : Option Str) (vary : Bool) (cacheControl : Str) :
    (validatorFields etag encoding vary cacheControl).flatMap renderField =
      str "ETag: \"" ++ etag ++ str "\"\r\n" ++
      encodingLine encoding ++
      (if vary then str "Vary: Accept-Encoding\r\n" else []) ++
      str "Cache-Control: " ++ cacheControl ++ str "\r\n" := by
  obtain ⟨e1, e2, e3, e4, e5, -⟩ := cachedTexts
  rw [validatorFields, e1, e2, e4, e5]
  cases encoding <;> cases vary <;>
    simp only [encodingLine, e3, Option.toList_none, Option.toList_some, List.map_nil, List.map_cons, if_true, if_false,
      Bool.false_eq_true, List.flatMap_append, List.flatMap_cons, List.flatMap_nil, List.append_nil,
      List.append_assoc, renderField]

theorem plain_validatorFields {etag cacheControl : Str} {encoding : Option Str} {vary : Bool} (he : Clean etag)
    (henc : ∀ enc, encoding = some enc → Clean enc) (hcc : Clean cacheControl) :
    Plain (validatorFields etag encoding vary cacheControl) := by
  obtain ⟨-, -, -, hquote, -⟩ := clean_pieces
  refine .append (.append (.append ?_ ?_) (.ite fun _ => ?_)) ?_
  · refine .cons (by simp [plainNames]) ?_ plain_nil
    simp only [clean_append]
    exact ⟨⟨hquote, he⟩, hquote⟩
  · cases encoding with
    | none => exact plain_nil
    | some enc => exact .cons (by simp [plainNames]) (henc enc rfl) plain_nil
  · exact .fixed (by simp [fixedFields]) plain_nil
  · exact .cons (by simp [plainNames]) hcc plain_nil

def notModifiedResponse (etag : Str) (encoding : Option Str) (vary : Bool) (cacheControl : Str) (keepAlive : Bool)
    (h : HeaderConfig) : Response where
  code := 304
  reason := str "Not Modified"
  fields := validatorFields etag encoding vary cacheControl ++ connField keepAlive :: h.fields
  body := []

theorem send304_render (etag : Str) (encoding : Option Str) (vary : Bool) (cacheControl : Str) (keepAlive : Bool)
    (h : HeaderConfig) : send304 etag encoding vary cacheControl keepAlive h.render =
      (notModifiedResponse etag encoding vary cacheControl keepAlive h).render := by
  obtain ⟨-, -, -, -, -, e1, e2, -⟩ := cachedTexts
  unfold send304
  rw [render_eq, e1, e2]
  simp only [notModifiedResponse, Response.render, Response.head, Response.lines, connField, List.flatMap_append,
    List.flatMap_cons, validatorFields_eq, List.append_nil, List.append_assoc, renderField]

/-- A 200 of the cache. -/
def okResponse (mime : Str) (bodyLen : Nat) (etag : Str) (encoding : Option Str) (vary : Bool) (cacheControl : Str)
    (keepAlive : Bool) (h : HeaderConfig) (body : Bytes) : Response where
  code := 200
  reason := str "OK"
  fields := [(str "Content-Type", mime)] ++ (str "Content-Length", dec bodyLen) ::
    (validatorFields etag encoding vary cacheControl ++ connField keepAlive :: h.fields)
  body

theorem buildHeaderFront_eq (mime : Str) (bodyLen : Nat) (etag : Str) (encoding : Option Str) (vary : Bool)
    (cacheControl : Str) : buildHeaderFront mime bodyLen etag encoding vary cacheControl =
      str "HTTP/1.1 " ++ dec 200 ++ str " " ++ str "OK" ++ str "\r\n" ++
      renderField (str "Content-Type", mime) ++ renderField (str "Content-Length", dec bodyLen) ++
      (validatorFields etag encoding vary cacheControl).flatMap renderField := by
  obtain ⟨-, -, -, -, -, -, -, e1, e2, e3, -⟩ := cachedTexts
  unfold buildHeaderFront
  rw [validatorFields_eq, e1, e2, e3]
  simp only [List.append_assoc, renderField]

/-- A header with the `Connection` line of either form. -/
theorem okResponse_head (mime : Str) (bodyLen : Nat) (etag : Str) (encoding : Option Str) (vary : Bool)
    (cacheControl : Str) (keepAlive : Bool) (h : HeaderConfig) (body : Bytes) :
    (okResponse mime bodyLen etag encoding vary cacheControl keepAlive h body).head =
      buildHeaderFront mime bodyLen etag encoding vary cacheControl ++ (str "Connection: " ++ connWord keepAlive) ++
        (str "\r\n" ++ h.render ++ str "\r\n") := by
  obtain ⟨-, -, -, -, -, -, -, -, -, -, e1, -⟩ := cachedTexts
  rw [buildHeaderFront_eq, render_eq, e1]
  simp only [okResponse, Response.head, Response.lines, connField, List.flatMap_append, List.flatMap_cons,
    List.flatMap_nil, List.append_nil, List.append_assoc, renderField]

theorem buildHeader_eq (mime : Str) (bodyLen : Nat) (etag : Str) (encoding : Option Str) (vary : Bool)
    (cacheControl : Str) (h : HeaderConfig) (body : Bytes) :
    buildHeader mime bodyLen etag encoding vary cacheControl h.render =
      (okResponse mime bodyLen etag encoding vary cacheControl true h body).head := by
  obtain ⟨-, -, -, -, -, -, -, -, -, -, -, e1⟩ := cachedTexts
  rw [okResponse_head, buildHeader, e1]
  simp only [connWord, if_true, List.append_assoc]

theorem okResponse_wellFramed {mime etag cacheControl : Str} {bodyLen : Nat} {encoding : Option Str}
    {vary keepAlive isHead : Bool} {h : HeaderConfig} {body : Bytes} (hm : Clean mime) (he : Clean etag)
    (henc : ∀ enc, encoding = some enc → Clean enc) (hcc : Clean cacheControl) (hc : Clean h.csp)
    (hhead : isHead = true → body = []) (hlen : isHead = false → bodyLen = body.length) :
    (okResponse mime bodyLen etag encoding vary cacheControl keepAlive h body).WellFramed isHead := by
  obtain ⟨-, -, -, -, -, -, -, hreason, -⟩ := clean_pieces
  refine wellFramed_length hreason (.cons (by simp [plainNames]) hm plain_nil)
    (.append (plain_validatorFields he henc hcc) (.conn (plain_fields hc))) (clean_dec _) ?_ ?_
  · rintro (h | h | h)
    · cases h
    · cases h
    · exact hhead h
  · intro h
    rw [hlen (by simpa using h)]

/-! ## The close form -/

/-- No `n` stands right before a colon, and the text starts with no colon. -/
structure Quiet (l : Str) : Prop where
  chain : l.IsChain fun x y => ¬ (x = 110 ∧ y = 58)
  head : l.head? ≠ some 58

instance (l : Str) : Decidable (Quiet l) :=
  decidable_of_iff (l.IsChain (fun x y => ¬ (x = 110 ∧ y = 58)) ∧ l.head? ≠ some 58)
    ⟨fun h => ⟨h.1, h.2⟩, fun h => ⟨h.chain, h.head⟩⟩

theorem Quiet.append {a b : Str} (ha : Quiet a) (hb : Quiet b) : Quiet (a ++ b) := by
  constructor
  · rw [List.isChain_append]
    refine ⟨ha.chain, hb.chain, fun x _ y hy h => hb.head ?_⟩
    rw [Option.mem_def.1 hy, h.2]
  · cases a with
    | nil => exact hb.head
    | cons x t => exact ha.head

theorem quiet_of_noColon {l : Str} (h : 58 ∉ l) : Quiet l := by
  constructor
  · rw [List.isChain_iff_getElem]
    rintro i hi ⟨-, hy⟩
    exact h (hy ▸ List.getElem_mem _)
  · intro hh
    exact h (List.mem_of_mem_head? hh)

theorem Quiet.ite {c : Bool} {a : Str} (ha : Quiet a) : Quiet (if c then a else []) := by
  split
  · exact ha
  · exact quiet_of_noColon nofun

/-- The `Connection` line is the first place where its text occurs. -/
theorem firstAt_connection {front rest : Str} (hf : Quiet front) :
    FirstAt (str "Connection: keep-alive") (front ++ str "Connection: keep-alive" ++ rest) front.length := by
  have hname : Quiet (front ++ str "Connection") := hf.append (by decide)
  have hpat : str "Connection: keep-alive" = str "Connection" ++ str ": keep-alive" := by decide
  have hn : (str "Connection: keep-alive")[9]? = some 110 := by decide
  have hc : (str "Connection: keep-alive")[10]? = some 58 := by decide
  have hlen : (str "Connection").length = 10 := by decide
  refine ⟨by simp, by simp, fun j hj hp => ?_⟩
  obtain ⟨u, hu⟩ := hp
  -- an occurrence further left would put its `n:` into the text before or the name itself
  have hat : ∀ k b, k ≤ 10 → (str "Connection: keep-alive")[k]? = some b → (front ++ str "Connection")[j + k]? = some b := by
    intro k b hk hb
    have hdrop : ((front ++ str "Connection: keep-alive" ++ rest).drop j)[k]? = some b := by
      rw [← hu, List.getElem?_append_left ((List.getElem?_eq_some_iff.1 hb).1)]
      exact hb
    rw [List.getElem?_drop, hpat, ← List.append_assoc, List.append_assoc (front ++ str "Connection"),
      List.getElem?_append_left (by rw [List.length_append, hlen]; omega)] at hdrop
    exact hdrop
  have h9 := List.getElem?_eq_some_iff.1 (hat 9 110 (by omega) hn)
  have h10 := List.getElem?_eq_some_iff.1 (hat 10 58 (by omega) hc)
  exact List.isChain_iff_getElem.1 hname.chain (j + 9) h10.1 ⟨h9.2, h10.2⟩

theorem closeHeader_eq {front : Str} (hf : Quiet front) (rest : Str) :
    closeHeader (front ++ str "Connection: keep-alive" ++ rest) = front ++ str "Connection: close" ++ rest :=
  replaceFirst_of_firstAt (firstAt_connection hf)

theorem quiet_front {mime etag cacheControl : Str} (bodyLen : Nat) {encoding : Option Str} (vary : Bool)
    (hm : 58 ∉ mime) (he : 58 ∉ etag) (henc : ∀ enc, encoding = some enc → 58 ∉ enc) (hcc : 58 ∉ cacheControl) :
    Quiet (buildHeaderFront mime bodyLen etag encoding vary cacheControl) := by
  have hdec : 58 ∉ dec bodyLen := fun h => absurd (isAlnum_of_mem_dec h) (by decide)
  unfold buildHeaderFront
  refine .append (.append (.append (.append (.append (.append (.append (.append (.append (.append (.append ?_
    (quiet_of_noColon hm)) ?_) (quiet_of_noColon hdec)) ?_) (quiet_of_noColon he)) ?_) ?coding) (.ite ?_)) ?_)
    (quiet_of_noColon hcc)) ?_
  case coding =>
    cases encoding with
    | none => exact quiet_of_noColon nofun
    | some enc =>
      refine .append (.append ?_ (quiet_of_noColon (henc enc rfl))) ?_
      all_goals decide
  all_goals decide

/-- The header of either `Connection` form, from the prebuilt one. -/
theorem connection_header {mime etag cacheControl : Str} {bodyLen : Nat} {encoding : Option Str} {vary : Bool}
    (hm : 58 ∉ mime) (he : 58 ∉ etag) (henc : ∀ enc, encoding = some enc → 58 ∉ enc) (hcc : 58 ∉ cacheControl)
    (h : HeaderConfig) (keepAlive : Bool) (body : Bytes) :
    (if keepAlive then buildHeader mime bodyLen etag encoding vary cacheControl h.render
      else closeHeader (buildHeader mime bodyLen etag encoding vary cacheControl h.render)) =
      (okResponse mime bodyLen etag encoding vary cacheControl keepAlive h body).head := by
  cases keepAlive with
  | true => exact buildHeader_eq _ _ _ _ _ _ h body
  | false =>
    have e1 : str "Connection: close" = str "Connection: " ++ str "close" := by decide
    simp only [Bool.false_eq_true, if_false]
    rw [buildHeader, closeHeader_eq (quiet_front bodyLen vary hm he henc hcc), okResponse_head, e1]
    simp only [connWord, Bool.false_eq_true, if_false, List.append_assoc]

end BareServer
