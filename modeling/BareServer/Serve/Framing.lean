/-
Every answer is one well-framed response: whatever a request puts into its line and its fields, and
whatever a config puts into its redirects and its `csp`, no builder writes a byte that would start
another line or another message.
-/
import BareServer.Serve.CacheSpec
import BareServer.Serve.HeadSpec
import BareServer.Serve.TextSpec
import BareServer.Config.ParseSpec
import BareServer.Watch.BuildSpec

namespace BareServer

open BareServer.Lib

/-! ## One response -/

/-- The statuses a request can get. -/
def statusCodes : List Nat := [200, 301, 304, 400, 404, 405, 500]

/-- What is written is one response, cut where its header block ends and nowhere before. -/
def OneResponse (out : Bytes) (isHead : Bool) : Prop :=
  ∃ r : Response, out = r.render ∧ r.code ∈ statusCodes ∧ r.WellFramed isHead ∧
    FirstAt crlfcrlf out (r.head.length - 4) ∧ out.drop r.head.length = r.body

theorem oneResponse_of_wellFramed {r : Response} {isHead : Bool} (hcode : r.code ∈ statusCodes)
    (h : r.WellFramed isHead) : OneResponse r.render isHead :=
  ⟨r, rfl, hcode, h, h.firstAt⟩

/-- Was the request line read, and is its method HEAD? -/
def answersHead (head : Bytes) : Bool :=
  match readRequest head with
  | .error isHead => isHead
  | .ok req => req.isHead

/-- Letters, digits, hyphens and dots. -/
def isDnsName (host : Str) : Bool := host.all fun b => isAlnum b || b == 45 || b == 46

def isDecimal (port : Str) : Bool := port.all isDigit

/-- Opening a snapshot file, when that succeeds, gives as many bytes as were recorded. -/
def Recorded (fs : FileSys) (v : DiskVariant) : Prop :=
  ∀ reads, fs.snapshot v.path = some reads → ∃ content, ReadsTo reads content ∧ content.length = v.len

def DiskEntry.variants (d : DiskEntry) : List DiskVariant := d.identity :: (d.gzip.toList ++ d.br.toList)

/-- Every snapshot file the table points at has its recorded length. -/
def SnapshotsRecorded (fs : FileSys) (vhosts : Vhosts) : Prop :=
  ∀ host site url d, vhosts.sites.lookup host = some site → site.cache.map.lookup url = some (.disk d) →
    ∀ v ∈ d.variants, Recorded fs v

/-! ## Spliced text -/

theorem clean_of_isDnsName {host : Str} (h : isDnsName host = true) : Clean host := by
  intro b hb
  have := List.all_eq_true.1 h b hb
  simp only [Bool.or_eq_true, beq_iff_eq] at this
  rcases this with (h | rfl) | rfl
  · exact isControl_of_isAlnum h
  · rfl
  · rfl

theorem clean_of_isDecimal {port : Str} (h : isDecimal port = true) : Clean port := fun b hb =>
  isControl_of_isAlnum (by rw [isAlnum, List.all_eq_true.1 h b hb, Bool.true_or])

theorem clean_targetPath {target : Str} (h : Clean target) : Clean (targetPath target) :=
  h.subset (List.takeWhile_subset _)

theorem clean_targetQuery {target : Str} (h : Clean target) : Clean (targetQuery target) :=
  h.subset (List.dropWhile_subset _)

/-- The text of a table and a request that goes into a Location. -/
structure CleanInputs (vhosts : Vhosts) (hostKey target : Str) : Prop where
  hostKey : Clean hostKey
  httpsPort : Clean vhosts.httpsPort
  httpPort : Clean vhosts.httpPort
  target : Clean target

/-- The same for any property of bytes that text without control bytes has. -/
structure InputsAll (P : UInt8 → Prop) (vhosts : Vhosts) (hostKey target : Str) : Prop where
  clean : ∀ b, isControl b = false → P b
  hostKey : ∀ b ∈ hostKey, P b
  httpsPort : ∀ b ∈ vhosts.httpsPort, P b
  httpPort : ∀ b ∈ vhosts.httpPort, P b
  target : Clean target

section

variable {P : UInt8 → Prop} {site : Site} {vhosts : Vhosts} {hostKey target : Str} {redirectHttps : Bool}

theorem CleanInputs.all (hin : CleanInputs vhosts hostKey target) : InputsAll (isControl · = false) vhosts hostKey target :=
  ⟨fun _ h => h, hin.hostKey, hin.httpsPort, hin.httpPort, hin.target⟩

/-- The texts written around the inputs. -/
theorem clean_schemes : Clean (str "http") ∧ Clean (str "https") ∧ Clean (str "://") ∧ Clean (str "https://") ∧
    Clean (str "/") ∧ Clean (str ":") := by
  decide

namespace InputsAll

/-- Text without control bytes has the property throughout. -/
theorem ofClean (hin : InputsAll P vhosts hostKey target) {s : Str} (h : Clean s) : ∀ b ∈ s, P b :=
  fun b hb => hin.clean b (h b hb)

theorem authority (hin : InputsAll P vhosts hostKey target) {port : Str} (hp : ∀ b ∈ port, P b) (default : Str) :
    ∀ b ∈ redirectAuthority hostKey port default, P b := by
  obtain ⟨-, -, -, -, -, hcolon⟩ := clean_schemes
  unfold redirectAuthority
  split
  · exact hin.hostKey
  · simp only [List.forall_mem_append]
    exact ⟨⟨hin.hostKey, hin.ofClean hcolon⟩, hp⟩

variable (site redirectHttps) in
/-- The scheme and authority of a same-host Location. -/
theorem origin (hin : InputsAll P vhosts hostKey target) :
    let (scheme, authority) :=
      if redirectHttps && !site.forceSsl then (str "http", redirectAuthority hostKey vhosts.httpPort (str "80"))
      else (str "https", redirectAuthority hostKey vhosts.httpsPort (str "443"))
    (∀ b ∈ scheme, P b) ∧ ∀ b ∈ authority, P b := by
  obtain ⟨h1, h2, -⟩ := clean_schemes
  cases redirectHttps && !site.forceSsl
  · exact ⟨hin.ofClean h2, hin.authority hin.httpsPort _⟩
  · exact ⟨hin.ofClean h1, hin.authority hin.httpPort _⟩

theorem ruleLocation (hin : InputsAll P vhosts hostKey target) {scheme authority dest query : Str}
    (hs : ∀ b ∈ scheme, P b) (ha : ∀ b ∈ authority, P b) (hd : Clean dest) (hq : Clean query) :
    ∀ b ∈ ruleLocation scheme authority dest query, P b := by
  obtain ⟨-, -, hsep, -⟩ := clean_schemes
  unfold BareServer.ruleLocation
  simp only
  split
  · exact hin.ofClean hd
  all_goals simp only [List.forall_mem_append]
  · exact ⟨hin.ofClean hd, hin.ofClean hq⟩
  · exact ⟨⟨⟨hs, hin.ofClean hsep⟩, ha⟩, hin.ofClean hd⟩
  · exact ⟨⟨⟨⟨hs, hin.ofClean hsep⟩, ha⟩, hin.ofClean hd⟩, hin.ofClean hq⟩

/-- Every Location of the redirecting stages. -/
theorem redirectFor (hr : site.redirects.Clean) (hin : InputsAll P vhosts hostKey target) {decoded location : Str}
    (h : redirectFor site vhosts hostKey target (targetPath target) (targetQuery target) decoded redirectHttps =
      some location) : ∀ b ∈ location, P b := by
  obtain ⟨-, -, hsep, hhttps, -⟩ := clean_schemes
  have hquery := clean_targetQuery hin.target
  have horigin := hin.origin site redirectHttps
  unfold BareServer.redirectFor at h
  simp only at h horigin
  generalize (if redirectHttps && !site.forceSsl then (str "http", redirectAuthority hostKey vhosts.httpPort (str "80"))
    else (str "https", redirectAuthority hostKey vhosts.httpsPort (str "443"))) = origin at h horigin
  obtain ⟨scheme, authority⟩ := origin
  simp only at h horigin
  obtain ⟨hscheme, hauthority⟩ := horigin
  split at h
  · cases h
  cases hres : site.redirects.resolve (targetPath target) with
  | some dest =>
    rw [hres] at h
    cases h
    exact hin.ruleLocation hscheme hauthority (Redirects.resolve_clean hr (clean_targetPath hin.target) hres) hquery
  | none =>
    rw [hres] at h
    simp only at h
    split at h
    · cases h
      simp only [List.forall_mem_append]
      exact ⟨⟨⟨⟨hscheme, hin.ofClean hsep⟩, hauthority⟩, hin.ofClean (clean_percentEncodePath _)⟩, hin.ofClean hquery⟩
    · split at h
      · cases h
        simp only [List.forall_mem_append]
        exact ⟨⟨hin.ofClean hhttps, hin.authority hin.httpsPort _⟩, hin.ofClean hin.target⟩
      · cases h

theorem dirLocation (hin : InputsAll P vhosts hostKey target) (decoded : Str) :
    ∀ b ∈ dirLocation site vhosts hostKey (targetQuery target) decoded redirectHttps, P b := by
  obtain ⟨-, -, hsep, -, hslash, -⟩ := clean_schemes
  obtain ⟨hscheme, hauthority⟩ := hin.origin site redirectHttps
  unfold BareServer.dirLocation
  simp only [List.forall_mem_append]
  exact ⟨⟨⟨⟨⟨hscheme, hin.ofClean hsep⟩, hauthority⟩, hin.ofClean (clean_percentEncodePath _)⟩, hin.ofClean hslash⟩,
    hin.ofClean (clean_targetQuery hin.target)⟩

end InputsAll

end

/-! ## Each builder -/

section

variable {h : HeaderConfig} {fs : FileSys}

/-- The statuses of one error set. -/
theorem oneResponse_sendError (hc : Clean h.csp) {code : Nat} {reason : Str} (hcode : code ∈ [400, 404, 405, 500])
    (hr : Clean reason) (keepAlive isHead : Bool) :
    OneResponse (sendError (buildStatus code reason h.render) keepAlive isHead) isHead := by
  rw [sendError_render]
  refine oneResponse_of_wellFramed ?_ (statusResponse_wellFramed ?_ hr hc) <;>
    simp only [List.mem_cons, List.not_mem_nil, or_false] at hcode
  · show code ∈ statusCodes
    rcases hcode with rfl | rfl | rfl | rfl <;> decide
  · rcases hcode with rfl | rfl | rfl | rfl <;> decide

/-- The reasons of the error set. -/
theorem clean_reasons : Clean (str "Bad Request") ∧ Clean (str "Not Found") ∧ Clean (str "Method Not Allowed") ∧
    Clean (str "Internal Server Error") := by
  decide

/-- The error sets of a config answer with one response each. -/
theorem errorPages_oneResponse (hc : Clean h.csp) (keepAlive isHead : Bool) :
    OneResponse (sendError (ErrorPages.new h.render).badRequest keepAlive isHead) isHead ∧
    OneResponse (sendError (ErrorPages.new h.render).notFound keepAlive isHead) isHead ∧
    OneResponse (sendError (ErrorPages.new h.render).methodNotAllowed keepAlive isHead) isHead ∧
    OneResponse (sendError (ErrorPages.new h.render).internalError keepAlive isHead) isHead := by
  obtain ⟨h1, h2, h3, h4⟩ := clean_reasons
  exact ⟨oneResponse_sendError hc (by decide) h1 _ _, oneResponse_sendError hc (by decide) h2 _ _,
    oneResponse_sendError hc (by decide) h3 _ _, oneResponse_sendError hc (by decide) h4 _ _⟩

theorem oneResponse_sendRedirect (hc : Clean h.csp) {location : Str} (hl : Clean location) (keepAlive isHead : Bool) :
    OneResponse (sendRedirect location keepAlive h.render) isHead := by
  rw [sendRedirect_render]
  refine oneResponse_of_wellFramed ?_ (redirectResponse_wellFramed hl hc)
  show 301 ∈ statusCodes
  decide

/-- A site as a build of an accepted config makes it: its policy, its redirects, and every entry that
of some file. -/
structure SafeSite (h : HeaderConfig) (site : Site) : Prop where
  csp : Clean h.csp
  policy : PolicyOf h site.policy
  redirects : site.redirects.Clean
  entries : ∀ url e, site.cache.map.lookup url = some e → ∃ c data,
    e = .mem (makeCached c url (mimeFor url) data site.policy) ∨
      ∃ bd, e = .disk (diskEntry c url (mimeFor url) data site.policy bd)

theorem oneResponse_serveAcmeToken {p : Policy} (hc : Clean h.csp) (hp : PolicyOf h p) (root : Path) (decoded : Str)
    (keepAlive isHead : Bool) : OneResponse (serveAcmeToken fs root decoded keepAlive isHead p).out isHead := by
  rcases serveAcmeToken_out fs root decoded keepAlive isHead p h hp.securityHeaders with e | ⟨body, e⟩
  · rw [e, hp.errors]
    exact (errorPages_oneResponse hc keepAlive isHead).2.1
  · rw [e]
    refine oneResponse_of_wellFramed ?_ (tokenResponse_wellFramed hc)
    show 200 ∈ statusCodes
    decide

/-- A file's answer is one response when what is sent of it has the length of its body. -/
theorem oneResponse_fileResponse {c : Compressors} {data : Bytes} {p : Policy} {url acceptEnc inm : Str}
    {keepAlive isHead : Bool} {content : Bytes} (hc : Clean h.csp) (hp : PolicyOf h p)
    (hlen : isHead = false → notModified inm (etagFor (chosenBody c (mimeFor url) data p acceptEnc).1) = false →
      content.length = (chosenBody c (mimeFor url) data p acceptEnc).1.length) :
    OneResponse (fileResponse c (mimeFor url) data p h url acceptEnc inm keepAlive isHead content).render isHead := by
  have henc := fun enc => @chosenBody_clean c (mimeFor url) data p acceptEnc enc
  obtain ⟨-, -, -, -, -, -, -, -, -, hreason, -⟩ := clean_pieces
  unfold fileResponse variantResponse
  simp only
  split
  · refine oneResponse_of_wellFramed (by show 304 ∈ statusCodes; decide) ?_
    exact wellFramed_notModified hreason
      ((plain_validatorFields (etagFor_clean _).1 henc (hp.cacheControl url).1).append (plain_fields hc).conn)
  · rename_i hnm
    refine oneResponse_of_wellFramed (by show 200 ∈ statusCodes; decide) ?_
    refine okResponse_wellFramed (mimeFor_clean url).1 (etagFor_clean _).1 henc (hp.cacheControl url).1 hc ?_ ?_
    · intro hhead
      rw [hhead, if_pos rfl]
    · intro hhead
      rw [hhead, if_neg Bool.false_ne_true]
      exact (hlen hhead (by simpa using hnm)).symm

/-- Every body of a file is that of one of its variants on disk. -/
theorem diskVariant_mem {c : Compressors} {mime : Str} {data : Bytes} {p : Policy} (url : Str) (bd : Path) {nb : Str × Bytes}
    (h : nb ∈ bodies c mime data p) : ∃ v ∈ (diskEntry c url mime data p bd).variants,
      v.path = snapshotPath bd nb.1 url ∧ v.len = nb.2.length := by
  unfold bodies at h
  unfold DiskEntry.variants diskEntry
  simp only [List.mem_cons, List.mem_append, List.mem_map, Option.mem_toList, Option.map_eq_some_iff] at h ⊢
  rcases h with rfl | ⟨g, hg, rfl⟩ | ⟨b, hb, rfl⟩
  · exact ⟨_, .inl rfl, rfl, rfl⟩
  · exact ⟨_, .inr (.inl ⟨g, hg, rfl⟩), rfl, rfl⟩
  · exact ⟨_, .inr (.inr ⟨b, hb, rfl⟩), rfl, rfl⟩

theorem oneResponse_serveCached {site : Site} (hs : SafeSite h site)
    (hrec : ∀ url d, site.cache.map.lookup url = some (.disk d) → ∀ v ∈ d.variants, Recorded fs v) {url : Str}
    {e : Cached} (he : site.cache.map.lookup url = some e) (acceptEnc inm : Str) (keepAlive isHead : Bool) :
    OneResponse (serveCached fs e acceptEnc inm keepAlive isHead site.policy).out isHead := by
  have hp := hs.policy
  obtain ⟨c, data, rfl | ⟨bd, rfl⟩⟩ := hs.entries url e he
  · rw [serveCached, serveMem_makeCached hp rfl]
    exact oneResponse_fileResponse hs.csp hp fun _ _ => rfl
  · obtain ⟨ns, hmem, -, hserve⟩ := serveDisk_diskEntry (c := c) hp (rfl : mimeFor url = _) fs data bd acceptEnc inm keepAlive isHead
    rw [serveCached, hserve]
    split
    · rename_i hnone
      refine oneResponse_fileResponse hs.csp hp fun hhead hnm => ?_
      rw [hhead, hnm] at hnone
      cases hnone
    · obtain ⟨v, hv, hpath, hlen⟩ := diskVariant_mem url bd hmem
      have hrecorded := hrec url _ he v hv
      rw [Recorded, hpath] at hrecorded
      cases hsnap : fs.snapshot (snapshotPath bd ns url) with
      | none =>
        rw [hp.errors]
        exact (errorPages_oneResponse hs.csp false isHead).2.2.2
      | some reads =>
        obtain ⟨content, hreads, hcontent⟩ := hrecorded reads hsnap
        simp only [streamBody_readsTo hreads]
        refine oneResponse_fileResponse hs.csp hp fun _ _ => ?_
        rw [List.length_take, hcontent, hlen, Nat.min_self]

/-! ## The request -/

theorem oneResponse_serveContent {site : Site} {vhosts : Vhosts} {req : Request} {hostKey decoded : Str}
    {keepAlive redirectHttps : Bool} (hs : SafeSite h site)
    (hrec : ∀ url d, site.cache.map.lookup url = some (.disk d) → ∀ v ∈ d.variants, Recorded fs v)
    (hin : CleanInputs vhosts hostKey req.target) :
    OneResponse (serveContent fs site vhosts req hostKey (targetQuery req.target) decoded keepAlive redirectHttps).out
      req.isHead := by
  have hp := hs.policy
  have herr := (errorPages_oneResponse hs.csp keepAlive req.isHead).2.1
  unfold serveContent
  simp only
  split
  · cases site.root with
    | some root => exact oneResponse_serveAcmeToken hs.csp hp root decoded keepAlive req.isHead
    | none => rw [hp.errors]; exact herr
  · cases hres : resolve site.cache.map decoded with
    | none => rw [hp.errors]; exact herr
    | some r =>
      cases r with
      | entry e =>
        obtain ⟨url, -, he⟩ := List.exists_of_findSome?_eq_some (resolve_entry hres)
        exact oneResponse_serveCached hs hrec he _ _ _ _
      | dirIndex =>
        show OneResponse (sendRedirect _ _ _) _
        rw [hp.securityHeaders]
        exact oneResponse_sendRedirect hs.csp (hin.all.dirLocation decoded) _ _

theorem oneResponse_handleSite {site : Site} {vhosts : Vhosts} {req : Request} {hostKey : Str}
    {keepAlive redirectHttps : Bool} (hs : SafeSite h site)
    (hrec : ∀ url d, site.cache.map.lookup url = some (.disk d) → ∀ v ∈ d.variants, Recorded fs v)
    (hin : CleanInputs vhosts hostKey req.target) :
    OneResponse (handleSite fs site vhosts req hostKey keepAlive redirectHttps).out req.isHead := by
  have hp := hs.policy
  have herr := fun keepAlive => errorPages_oneResponse hs.csp keepAlive req.isHead
  unfold handleSite
  simp only
  split
  · rw [hp.errors]
    exact (herr _).2.2.1
  split
  · rw [hp.errors]
    exact (herr _).1
  cases hdec : (percentDecode (targetPath req.target)).bind fromUtf8 with
  | none =>
    rw [hp.errors]
    exact (herr _).1
  | some decoded =>
    simp only
    split
    · rename_i location hloc
      show OneResponse (sendRedirect _ _ _) _
      rw [hp.securityHeaders]
      exact oneResponse_sendRedirect hs.csp (hin.all.redirectFor hs.redirects hloc) _ _
    · exact oneResponse_serveContent hs hrec hin

end

section

variable {c : Compressors} {cfg : Config}

/-- Every site of a table built from an accepted config is safe, under its own header policy. -/
theorem safeSite_of_from {s : SiteConfig} {site : Site} (hc : cfg.Clean) (hs : s ∈ cfg.sites)
    (hf : SiteFrom c cfg s site) : SafeSite s.headers site := by
  refine ⟨hc.siteCsp s hs, ?_, ?_, ?_⟩
  · rw [hf.policy]
    exact policyOf_withHeaders _ _ _ _
  · rw [hf.redirects]
    exact hc.redirects s hs
  · intro url e he
    rcases hf.cache with hempty | ⟨env, seq, node, total, total', seq', -, hbuild⟩
    · rw [hempty] at he
      simp [SiteCache.empty] at he
    · obtain ⟨data, hentry⟩ := buildCache_entries hbuild he
      rw [hf.policy]
      exact ⟨env.compressors, data, entryFor_cases hentry⟩

/-- The answer of a table of an accepted config. -/
theorem VhostsFrom.oneResponse {vhosts : Vhosts} (hfrom : VhostsFrom c cfg vhosts) (hc : cfg.Clean)
    (hhosts : ∀ s ∈ cfg.sites, ∀ host ∈ s.hosts, isDnsName host = true) (hport : isDecimal cfg.port = true)
    (hhttpPort : isDecimal cfg.httpPort = true) {fs : FileSys} (hfs : SnapshotsRecorded fs vhosts) (head : Bytes)
    (wantKa redirectHttps : Bool) (sni : Option Str) :
    OneResponse (handleRequest fs head vhosts wantKa redirectHttps sni).out (answersHead head) := by
  have herr := fun keepAlive isHead => errorPages_oneResponse hc.csp keepAlive isHead
  unfold handleRequest answersHead
  cases hreq : readRequest head with
  | error isHead =>
    rw [hfrom.errors]
    exact (herr _ _).1
  | ok req =>
    simp only
    unfold handleAccepted
    simp only
    split
    · rw [hfrom.errors]
      exact (herr _ _).2.1
    cases hsite : vhosts.sites.lookup (normalizeHost req.fields.hostHdr) with
    | none =>
      rw [hfrom.errors]
      exact (herr _ _).2.1
    | some site =>
      obtain ⟨s, hs, hhost, hsf⟩ := hfrom.sites.site _ _ hsite
      refine oneResponse_handleSite (safeSite_of_from hc hs hsf) (fun url d hd => hfs _ _ url d hsite hd) ?_
      refine ⟨clean_of_isDnsName (hhosts s hs _ hhost), ?_, ?_, clean_iff.2 (readRequest_ok hreq).target⟩
      · rw [hfrom.httpsPort]; exact clean_of_isDecimal hport
      · rw [hfrom.httpPort]; exact clean_of_isDecimal hhttpPort

end

/-- A computed check of the table that a config builds when no file can be read tells that there is one. -/
theorem built_of_any {text : Str} {check : Vhosts → Bool} (h : (parseConfig text).toOption.any (fun cfg =>
      ((buildVhosts ⟨fun b _ => b, fun b _ => b⟩ cfg 0 : Look Unit _).run (fun _ => .empty) 0).value.1.toOption.any check) = true) :
    ∃ cfg vhosts, parseConfig text = .ok cfg ∧
      ((buildVhosts ⟨fun b _ => b, fun b _ => b⟩ cfg 0 : Look Unit _).run (fun _ => .empty) 0).value.1 = .ok vhosts ∧
      check vhosts = true := by
  obtain ⟨cfg, hcfg, hbuilt⟩ := ok_of_any h
  obtain ⟨vhosts, hbuild, hok⟩ := ok_of_any hbuilt
  exact ⟨cfg, vhosts, hcfg, hbuild, hok⟩

/-- Whatever a config accepted by the parser says, whatever the files did while its table was built,
and whatever a request says, one well-framed response goes out. -/
theorem handleRequest_oneResponse (c : Compressors) (text : Str) (cfg : Config) (hparse : parseConfig text = .ok cfg)
    (hhosts : ∀ s ∈ cfg.sites, ∀ host ∈ s.hosts, isDnsName host = true) (hport : isDecimal cfg.port = true)
    (hhttpPort : isDecimal cfg.httpPort = true) (history : Nat → World) (seq start : Nat) (vhosts : Vhosts)
    (hbuild : ((buildVhosts c cfg seq : Look Unit _).run history start).value.1 = .ok vhosts) (fs : FileSys)
    (hfs : SnapshotsRecorded fs vhosts) (head : Bytes) (wantKa redirectHttps : Bool) (sni : Option Str) :
    OneResponse (handleRequest fs head vhosts wantKa redirectHttps sni).out (answersHead head) :=
  ((buildVhosts_from (E := Unit) seq start).2 vhosts hbuild).oneResponse (parseConfig_clean hparse) hhosts hport hhttpPort
    hfs head wantKa redirectHttps sni

/-- A text config with a policy and a redirecting host, and a capture with an escaped line break. -/
theorem handleRequest_oneResponse_escaped_break :
    let text := str ("listen = [::]:443\ncsp = default-src 'self'\nsite a.example \x7b\n cert = /c\n key = /k\n" ++
      " redirect /old/* -> /new/$1\n\x7d\n")
    let head := str "GET /old/%0d%0aX HTTP/1.1\r\nHost: a.example\r\n\r\n"
    ∃ cfg vhosts, parseConfig text = .ok cfg ∧
      ((buildVhosts ⟨fun b _ => b, fun b _ => b⟩ cfg 0 : Look Unit _).run (fun _ => .empty) 0).value.1 = .ok vhosts ∧
      OneResponse (handleRequest ⟨fun _ => none, fun _ => none, fun _ => none⟩ head vhosts true false none).out false := by
  intro text head
  have hchecks : (parseConfig text).toOption.any (fun cfg =>
      cfg.sites.all (fun s => s.hosts.all isDnsName) && isDecimal cfg.port && isDecimal cfg.httpPort &&
        ((buildVhosts ⟨fun b _ => b, fun b _ => b⟩ cfg 0 : Look Unit _).run (fun _ => .empty) 0).value.1.toOption.any
          fun _ => true) = true := by
    decide +kernel
  obtain ⟨cfg, hcfg, hok⟩ := ok_of_any hchecks
  simp only [Bool.and_eq_true, List.all_eq_true] at hok
  obtain ⟨⟨⟨hhosts, hport⟩, hhttpPort⟩, hbuilt⟩ := hok
  obtain ⟨vhosts, hbuild, -⟩ := ok_of_any hbuilt
  exact ⟨cfg, vhosts, hcfg, hbuild, handleRequest_oneResponse _ text cfg hcfg hhosts hport hhttpPort _ 0 0 vhosts hbuild _
    (fun _ _ _ _ _ _ _ _ _ h => by cases h) head true false none⟩

end BareServer
