/-
What a response says of the connection in its Connection field, and what handling the request
returned.
-/
import BareServer.Serve.Fields
import BareServer.Config.OneLine

namespace BareServer

open BareServer.Lib

/-! ## One reply -/

/-- The response says that the connection is kept. -/
def Reply.SaysKeepAlive (r : Reply) : Prop := Response.valuesOf (str "connection") r.out = [str "keep-alive"]

/-- The response says that the connection is closed. -/
def Reply.SaysClose (r : Reply) : Prop := Response.valuesOf (str "connection") r.out = [str "close"]

instance (r : Reply) : Decidable r.SaysKeepAlive := inferInstanceAs (Decidable (_ = _))

instance (r : Reply) : Decidable r.SaysClose := inferInstanceAs (Decidable (_ = _))

/-- The response says one thing of the connection, to keep it only where that was allowed, and the same
is returned unless reading a file failed. -/
def Reply.Agrees (allowed : Bool) (r : Reply) : Prop :=
  ∃ keepAlive, Response.valuesOf (str "connection") r.out = [connWord keepAlive] ∧ (keepAlive = true → allowed = true) ∧
    (r.result = some keepAlive ∨ r.result = none ∧ r.opened ≠ [])

namespace Reply

theorem Agrees.keepAlive {allowed : Bool} {r : Reply} (h : r.Agrees allowed) (hres : r.result ≠ none) :
    (r.SaysKeepAlive ↔ r.result = some true) ∧ (r.SaysClose ↔ r.result = some false) := by
  obtain ⟨keepAlive, htold, -, hr | ⟨hr, -⟩⟩ := h
  · unfold SaysKeepAlive SaysClose
    rw [htold, hr]
    cases keepAlive <;> decide
  · exact absurd hr hres

theorem Agrees.allowed {allowed : Bool} {r : Reply} (h : r.Agrees allowed) (hres : r.result = some true) : allowed = true := by
  obtain ⟨keepAlive, -, hallowed, hr | ⟨hr, -⟩⟩ := h
  · rw [hres] at hr
    exact hallowed (Option.some.inj hr).symm
  · rw [hres] at hr
    cases hr

theorem Agrees.close {allowed : Bool} {r : Reply} (h : r.Agrees allowed) (htold : r.SaysClose) : r.result ≠ some true := by
  obtain ⟨keepAlive, hkeep, -, hr | ⟨hr, -⟩⟩ := h
  · rw [SaysClose, hkeep] at htold
    cases keepAlive with
    | true => exact absurd htold (by decide)
    | false => rw [hr]; exact Bool.noConfusion ∘ Option.some.inj
  · rw [hr]
    exact fun h => by cases h

theorem Agrees.failed {allowed : Bool} {r : Reply} (h : r.Agrees allowed) (hres : r.result = none) : r.opened ≠ [] := by
  obtain ⟨keepAlive, -, -, hr | ⟨-, hopened⟩⟩ := h
  · rw [hres] at hr
    cases hr
  · exact hopened

theorem Agrees.mono {allowed allowed' : Bool} {r : Reply} (h : r.Agrees allowed) (hle : allowed = true → allowed' = true) :
    r.Agrees allowed' := by
  obtain ⟨keepAlive, htold, hallowed, hr⟩ := h
  exact ⟨keepAlive, htold, fun hk => hle (hallowed hk), hr⟩

end Reply

/-! ## Each builder -/

section

variable {h : HeaderConfig} {fs : FileSys} {allowed keepAlive isHead : Bool}

theorem agrees_say {out : Bytes} (hle : keepAlive = true → allowed = true)
    (hout : Response.valuesOf (str "connection") out = [connWord keepAlive]) : (say out keepAlive).Agrees allowed :=
  ⟨keepAlive, hout, hle, .inl rfl⟩

/-- The pages of one error set. -/
def ErrorPages.pages (errs : ErrorPages) : List StatusResponse :=
  [errs.badRequest, errs.notFound, errs.methodNotAllowed, errs.internalError, errs.headersTooLarge, errs.requestTimeout]

/-- Every page of an error set is built from a status and its reason. -/
theorem errorPages_built {page : StatusResponse} (hpage : page ∈ (ErrorPages.new h.render).pages) :
    ∃ code reason, page = buildStatus code reason h.render ∧ (code ≠ 301 ∧ code ≠ 304) ∧ Clean reason := by
  obtain ⟨h1, h2, h3, h4⟩ := clean_reasons
  have hlate : Clean (str "Request Header Fields Too Large") ∧ Clean (str "Request Timeout") := by decide
  simp only [ErrorPages.pages, List.mem_cons, List.not_mem_nil, or_false] at hpage
  rcases hpage with rfl | rfl | rfl | rfl | rfl | rfl
  · exact ⟨_, _, rfl, by decide, h1⟩
  · exact ⟨_, _, rfl, by decide, h2⟩
  · exact ⟨_, _, rfl, by decide, h3⟩
  · exact ⟨_, _, rfl, by decide, h4⟩
  · exact ⟨_, _, rfl, by decide, hlate.1⟩
  · exact ⟨_, _, rfl, by decide, hlate.2⟩

/-- The error sets of a config say what they are told to. -/
theorem errorPages_connection (hc : Clean h.csp) (keepAlive isHead : Bool) {page : StatusResponse}
    (hpage : page ∈ (ErrorPages.new h.render).pages) :
    Response.valuesOf (str "connection") (sendError page keepAlive isHead) = [connWord keepAlive] := by
  obtain ⟨code, reason, rfl, hcode, hreason⟩ := errorPages_built hpage
  exact connection_sendError hc hcode hreason

theorem agrees_serveAcmeToken {p : Policy} (hc : Clean h.csp) (hp : PolicyOf h p) (root : Path) (decoded : Str) :
    (serveAcmeToken fs root decoded keepAlive isHead p).Agrees keepAlive := by
  have hresult : (serveAcmeToken fs root decoded keepAlive isHead p).result = some keepAlive := by
    unfold serveAcmeToken
    simp only
    split <;> rfl
  refine ⟨keepAlive, ?_, id, .inl hresult⟩
  rcases serveAcmeToken_out fs root decoded keepAlive isHead p h hp.securityHeaders with e | ⟨body, e⟩
  · rw [e, hp.errors]
    exact errorPages_connection hc keepAlive isHead (by simp [ErrorPages.pages])
  · rw [e]
    exact connection_tokenResponse hc body

theorem agrees_serveCached {site : Site} (hs : SafeSite h site) {url : Str} {e : Cached}
    (he : site.cache.map.lookup url = some e) (acceptEnc inm : Str) :
    (serveCached fs e acceptEnc inm keepAlive isHead site.policy).Agrees keepAlive := by
  have hp := hs.policy
  obtain ⟨c, data, rfl | ⟨bd, rfl⟩⟩ := hs.entries url e he
  · rw [serveCached, serveMem_makeCached hp rfl]
    exact ⟨keepAlive, (fileResponse_fields hs.csp hp).connection, id, .inl rfl⟩
  · obtain ⟨ns, -, -, hserve⟩ := serveDisk_diskEntry (c := c) hp (rfl : mimeFor url = _) fs data bd acceptEnc inm keepAlive isHead
    rw [serveCached, hserve]
    split
    · exact ⟨keepAlive, (fileResponse_fields hs.csp hp).connection, id, .inl rfl⟩
    · split
      · rw [hp.errors]
        exact ⟨false, errorPages_connection hs.csp false isHead (by simp [ErrorPages.pages]), Bool.noConfusion, .inl rfl⟩
      · rename_i reads _
        obtain ⟨body, ok⟩ := streamBody (chosenBody c (mimeFor url) data site.policy acceptEnc).1.length reads
        refine ⟨keepAlive, (fileResponse_fields hs.csp hp).connection, id, ?_⟩
        cases ok with
        | true => exact .inl rfl
        | false => exact .inr ⟨rfl, List.cons_ne_nil _ _⟩

/-! ## The request -/

/-- A Location whose inputs are on one line is on one line. -/
theorem agrees_redirect {p : Policy} (hc : Clean h.csp) (hp : PolicyOf h p) {location : Str} (hl : ∀ b ∈ location, b ≠ 10) :
    (say (sendRedirect location keepAlive p.securityHeaders) keepAlive).Agrees keepAlive := by
  rw [hp.securityHeaders]
  exact agrees_say id (connection_sendRedirect hc fun hm => hl 10 hm rfl)

theorem agrees_serveContent {site : Site} {vhosts : Vhosts} {req : Request} {hostKey decoded : Str} {redirectHttps : Bool}
    (hs : SafeSite h site) (hin : InputsAll (· ≠ 10) vhosts hostKey req.target) :
    (serveContent fs site vhosts req hostKey (targetQuery req.target) decoded keepAlive redirectHttps).Agrees keepAlive := by
  have hp := hs.policy
  have hnotFound : (say (sendError site.policy.errors.notFound keepAlive req.isHead) keepAlive).Agrees keepAlive := by
    rw [hp.errors]
    exact agrees_say id (errorPages_connection hs.csp _ _ (by simp [ErrorPages.pages]))
  unfold serveContent
  simp only
  split
  · cases site.root with
    | some root => exact agrees_serveAcmeToken hs.csp hp root decoded
    | none => exact hnotFound
  · cases hres : resolve site.cache.map decoded with
    | none => exact hnotFound
    | some r =>
      cases r with
      | entry e =>
        obtain ⟨url, -, he⟩ := List.exists_of_findSome?_eq_some (resolve_entry hres)
        exact agrees_serveCached hs he _ _
      | dirIndex => exact agrees_redirect hs.csp hp (hin.dirLocation decoded)

theorem agrees_handleSite {site : Site} {vhosts : Vhosts} {req : Request} {hostKey : Str} {redirectHttps : Bool}
    (hs : SafeSite h site) (hin : InputsAll (· ≠ 10) vhosts hostKey req.target) :
    (handleSite fs site vhosts req hostKey keepAlive redirectHttps).Agrees keepAlive := by
  have hp := hs.policy
  have herr : ∀ keepAlive, ∀ page ∈ (ErrorPages.new h.render).pages,
      Response.valuesOf (str "connection") (sendError page keepAlive req.isHead) = [connWord keepAlive] :=
    fun keepAlive _ hpage => errorPages_connection hs.csp keepAlive req.isHead hpage
  have hbad : (say (sendError site.policy.errors.badRequest false req.isHead) false).Agrees keepAlive := by
    rw [hp.errors]
    exact agrees_say Bool.noConfusion (herr _ _ (by simp [ErrorPages.pages]))
  unfold handleSite
  simp only
  split
  · rw [hp.errors]
    exact agrees_say id (herr _ _ (by simp [ErrorPages.pages]))
  split
  · exact hbad
  cases hdec : (percentDecode (targetPath req.target)).bind fromUtf8 with
  | none => exact hbad
  | some decoded =>
    simp only
    split
    · rename_i location hloc
      exact agrees_redirect hs.csp hp (hin.redirectFor hs.redirects hloc)
    · exact agrees_serveContent hs hin

theorem VhostsFrom.page {c : Compressors} {cfg : Config} {vhosts : Vhosts} (hfrom : VhostsFrom c cfg vhosts) (hc : cfg.Clean)
    {keepAlive isHead : Bool} {page : StatusResponse} (hpage : page ∈ vhosts.errors.pages) :
    Response.valuesOf (str "connection") (sendError page keepAlive isHead) = [connWord keepAlive] := by
  rw [hfrom.errors] at hpage
  exact errorPages_connection hc.csp keepAlive isHead hpage

/-- What goes into a Location of a table of an accepted config stays on one line. -/
theorem VhostsFrom.inputs {c : Compressors} {cfg : Config} {vhosts : Vhosts} (hfrom : VhostsFrom c cfg vhosts)
    (hline : cfg.OneLine) {s : SiteConfig} (hs : s ∈ cfg.sites) {hostKey target : Str} (hhost : hostKey ∈ s.hosts)
    (ht : Clean target) : InputsAll (· ≠ 10) vhosts hostKey target := by
  refine ⟨?_, ?_, ?_, ?_, ht⟩
  · rintro _ hb rfl
    exact absurd hb (by decide)
  · rintro _ hb rfl
    exact hline.hosts s hs _ hhost hb
  · rintro _ hb rfl
    exact hline.ports.1 (hfrom.httpsPort ▸ hb)
  · rintro _ hb rfl
    exact hline.ports.2 (hfrom.httpPort ▸ hb)

/-- A reply to an accepted head keeps the connection only where the head asks for it. -/
theorem VhostsFrom.agrees_accepted {c : Compressors} {cfg : Config} {vhosts : Vhosts} (hfrom : VhostsFrom c cfg vhosts)
    (hc : cfg.Clean) (hline : cfg.OneLine) (fs : FileSys) {head : Bytes} {req : Request} (hreq : readRequest head = .ok req)
    (wantKa redirectHttps : Bool) (sni : Option Str) :
    (handleRequest fs head vhosts wantKa redirectHttps sni).Agrees (req.fields.keepAlive && wantKa) := by
  have hnotFound : (say (sendError vhosts.errors.notFound (req.fields.keepAlive && wantKa) req.isHead)
      (req.fields.keepAlive && wantKa)).Agrees (req.fields.keepAlive && wantKa) :=
    agrees_say id (hfrom.page hc (by simp [ErrorPages.pages]))
  unfold handleRequest
  rw [hreq]
  simp only
  unfold handleAccepted
  simp only
  split
  · exact hnotFound
  cases hsite : vhosts.sites.lookup (normalizeHost req.fields.hostHdr) with
  | none => exact hnotFound
  | some site =>
    obtain ⟨s, hs, hhost, hsf⟩ := hfrom.sites.site _ _ hsite
    exact agrees_handleSite (safeSite_of_from hc hs hsf) (hfrom.inputs hline hs hhost (clean_iff.2 (readRequest_ok hreq).target))

/-- Every reply from a table of an accepted config says of the connection what is returned. -/
theorem VhostsFrom.agrees {c : Compressors} {cfg : Config} {vhosts : Vhosts} (hfrom : VhostsFrom c cfg vhosts)
    (hc : cfg.Clean) (hline : cfg.OneLine) (fs : FileSys) (head : Bytes) (wantKa redirectHttps : Bool) (sni : Option Str) :
    (handleRequest fs head vhosts wantKa redirectHttps sni).Agrees wantKa := by
  cases hreq : readRequest head with
  | error isHead =>
    unfold handleRequest
    rw [hreq]
    exact agrees_say Bool.noConfusion (hfrom.page hc (by simp [ErrorPages.pages]))
  | ok req =>
    have hallowed : (req.fields.keepAlive && wantKa) = true → wantKa = true := fun h => (Bool.and_eq_true _ _ ▸ h).2
    exact (hfrom.agrees_accepted hc hline fs hreq wantKa redirectHttps sni).mono hallowed

end

/-! ## Two tables -/

/-- A config with one rule. -/
def oneRule : Str :=
  str "listen = [::]:443\nsite a.example \x7b\n cert = /c\n key = /k\n redirect /old/* -> /new/$1\n\x7d\n"

theorem oneRule_built : ∃ cfg vhosts, parseConfig oneRule = .ok cfg ∧
    ((buildVhosts ⟨fun b _ => b, fun b _ => b⟩ cfg 0 : Look Unit _).run (fun _ => .empty) 0).value.1 = .ok vhosts := by
  have hchecks : (parseConfig oneRule).toOption.any (fun cfg =>
      ((buildVhosts ⟨fun b _ => b, fun b _ => b⟩ cfg 0 : Look Unit _).run (fun _ => .empty) 0).value.1.toOption.any
        fun _ => true) = true := by
    decide +kernel
  obtain ⟨cfg, vhosts, hcfg, hbuild, -⟩ := built_of_any hchecks
  exact ⟨cfg, vhosts, hcfg, hbuild⟩

/-- One file of three bytes, built on disk. -/
def pageTree : Node := .dir (some [(str "f", .file ⟨3, none⟩ (some (str "abc")))])

def pagePolicy : Policy := .withHeaders .default .default .disk (str "/snap")

def pageSite : Site where
  id := 0
  root := none
  cache := ((buildCache ⟨⟨fun d _ => d, fun d _ => d⟩, fun _ => true, fun _ => true⟩ pagePolicy 0 pageTree 0).1.map (·.1)).getD .empty
  forceSsl := true
  canonicalUrls := false
  redirects := default
  policy := pagePolicy

def pageTable : Vhosts where
  sites := (∅ : Sites).insert (str "a.example") pageSite
  httpsPort := str "443"
  httpPort := str "80"
  errors := pagePolicy.errors

end BareServer
