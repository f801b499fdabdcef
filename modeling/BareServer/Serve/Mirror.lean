/-
HEAD beside GET: two heads that differ in the method only are read alike, and every builder drops the
body alone, so the answer to a HEAD is the answer to the GET up to its first blank line.
-/
import BareServer.Serve.Persistence

namespace BareServer

open BareServer.Lib

/-! ## Two heads -/

/-- The method of a head: the first word of its first line. -/
def methodOf (head : Bytes) : Str := (requestLine ((splitCrlf head).headD [])).1

/-- The head with HEAD in place of its first three letters. -/
def asHead (head : Bytes) : Bytes := str "HEAD" ++ head.drop 3

theorem splitCrlf_append_left {w : Bytes} (h : 13 ∉ w) (s : Bytes) :
    splitCrlf (w ++ s) = (splitCrlf s).modifyHead (w ++ ·) := by
  induction w with
  | nil =>
    rw [List.nil_append]
    cases splitCrlf s <;> rfl
  | cons b w ih =>
    have hb : ∀ t, b = 13 → w ++ s = 10 :: t → False := by
      rintro t rfl -
      exact h List.mem_cons_self
    rw [List.cons_append, splitCrlf.eq_3 _ _ hb, ih (mt (List.mem_cons_of_mem _) h)]
    cases splitCrlf s <;> rfl

theorem splitOn_append_modifyHead {c : UInt8} {w : Str} (h : c ∉ w) (s : Str) :
    (w ++ s).splitOn c = (s.splitOn c).modifyHead (w ++ ·) := by
  induction w with
  | nil =>
    rw [List.nil_append]
    cases s.splitOn c <;> rfl
  | cons b w ih =>
    have hb : ¬ (b == c) = true := fun he => h (by rw [beq_iff_eq.1 he]; exact List.mem_cons_self)
    rw [List.cons_append, List.splitOn_cons_eq_if_modifyHead, if_neg hb, ih (mt (List.mem_cons_of_mem _) h)]
    cases s.splitOn c <;> rfl

/-- Letters in front of a request line are letters in front of its method. -/
theorem requestLine_append {w : Str} (h : 32 ∉ w) (l : Str) :
    requestLine (w ++ l) = (w ++ (requestLine l).1, (requestLine l).2) := by
  unfold requestLine
  rw [splitOn_append_modifyHead h]
  cases hs : l.splitOn 32 with
  | nil => exact absurd hs (List.splitOn_ne_nil _ _)
  | cons p ps => rfl

theorem prefix_headD_splitCrlf (s : Bytes) : (splitCrlf s).headD [] <+: s := by
  cases hs : splitCrlf s with
  | nil => exact List.nil_prefix
  | cons l ls =>
    have hflat := flatMap_splitCrlf s
    rw [hs, List.flatMap_cons] at hflat
    have hle : l.length ≤ s.length := by
      have hlen := congrArg List.length hflat
      simp only [List.length_append, List.length_cons, List.length_nil] at hlen
      omega
    have hl : l <+: s ++ [13, 10] := ⟨_, by rw [← hflat, List.append_assoc]⟩
    exact List.prefix_of_prefix_length_le hl (List.prefix_append _ _) hle

theorem prefix_requestLine (l : Str) : (requestLine l).1 <+: l := by
  have hjoin := @List.intercalate_splitOn _ l _ _ 32
  unfold requestLine
  cases hs : l.splitOn 32 with
  | nil => exact List.nil_prefix
  | cons p ps =>
    rw [hs] at hjoin
    cases ps with
    | nil => exact ⟨[], by simpa using hjoin⟩
    | cons q qs => exact ⟨_, by simpa [List.intercalate] using hjoin⟩

theorem getHead_of_method {head : Bytes} (h : methodOf head = str "GET") :
    ∃ rest, head = str "GET" ++ rest ∧ (requestLine ((splitCrlf rest).headD [])).1 = [] := by
  have hpre : str "GET" <+: head := h ▸ (prefix_requestLine _).trans (prefix_headD_splitCrlf head)
  obtain ⟨rest, rfl⟩ := hpre
  refine ⟨rest, rfl, ?_⟩
  have hline : (splitCrlf (str "GET" ++ rest)).headD [] = str "GET" ++ (splitCrlf rest).headD [] := by
    rw [splitCrlf_append_left (by decide)]
    cases hs : splitCrlf rest with
    | nil => exact absurd hs (splitCrlf_ne_nil rest)
    | cons l ls => rfl
  rw [methodOf, hline, requestLine_append (by decide)] at h
  simpa using h

theorem wellFormedHead_graph {w : Str} (h : ∀ b ∈ w, isGraph b = true) (s : Bytes) :
    wellFormedHead (w ++ s) = wellFormedHead s := by
  induction w with
  | nil => rfl
  | cons b w ih =>
    have hb := h b List.mem_cons_self
    simp only [isGraph, Bool.and_eq_true, decide_eq_true_eq, UInt8.lt_iff_toNat_lt, UInt8.reduceToNat] at hb
    have hcr : ∀ t, b = 13 → w ++ s = 10 :: t → False := by
      rintro t rfl -
      exact absurd hb (by decide)
    have hbad : (b == 13 || b == 10 || b == 0x7F || (b < 0x20 && b != 9)) = false := by
      simp only [Bool.or_eq_false_iff, Bool.and_eq_false_iff, beq_eq_false_iff_ne, decide_eq_false_iff_not, ne_eq,
        UInt8.lt_iff_toNat_lt, ← UInt8.toNat_inj, UInt8.reduceToNat]
      omega
    rw [List.cons_append, wellFormedHead.eq_3 _ _ hcr, hbad]
    exact ih fun b' hb' => h b' (List.mem_cons_of_mem _ hb')

/-- What is read of a head that begins with a word: the word is the method, and decides nothing else. -/
theorem readRequest_word {rest : Bytes} (hu : isUtf8 rest = true) (hf : wellFormedHead rest = true)
    (hword : (requestLine ((splitCrlf rest).headD [])).1 = []) :
    (∀ w, w ≠ [] → (∀ b ∈ w, isGraph b = true) → readRequest (w ++ rest) = .error (w == str "HEAD")) ∨
      ∃ target version fields, ∀ w, w ≠ [] → (∀ b ∈ w, isGraph b = true) →
        readRequest (w ++ rest) = .ok ⟨w, target, version, fields⟩ := by
  obtain ⟨line, lines, hlines⟩ : ∃ line lines, splitCrlf rest = line :: lines := by
    cases hs : splitCrlf rest with
    | nil => exact absurd hs (splitCrlf_ne_nil rest)
    | cons line lines => exact ⟨line, lines, rfl⟩
  rw [hlines, List.headD_cons] at hword
  obtain ⟨target, version, extra, hline⟩ : ∃ target version extra, requestLine line = ([], target, version, extra) :=
    ⟨_, _, _, Prod.ext hword rfl⟩
  -- the steps behind the method, with the word as it
  have hread : ∀ w, w ≠ [] → (∀ b ∈ w, isGraph b = true) → readRequest (w ++ rest) =
      if extra then .error (w == str "HEAD")
      else if target.isEmpty || version.isEmpty then .error (w == str "HEAD")
      else if version != str "HTTP/1.1" && version != str "HTTP/1.0" then .error (w == str "HEAD")
      else if target.any isControl then .error (w == str "HEAD")
      else
        (fieldLines ⟨version == str "HTTP/1.1", [], [], [], false, false⟩ lines).elim (.error (w == str "HEAD")) fun fields =>
          if fields.hasBody then .error (w == str "HEAD") else .ok ⟨w, target, version, fields⟩ := by
    intro w hne hw
    have hascii : isUtf8 w = true := isUtf8_ascii fun b hb => isGraph_lt (hw b hb)
    have htext : fromUtf8 (w ++ rest) = some (w ++ rest) := fromUtf8_eq_some.2 ⟨by rw [isUtf8_append hascii, hu], rfl⟩
    have hform : wellFormedHead (w ++ rest) = true := by rw [wellFormedHead_graph hw, hf]
    have hsplit : splitCrlf (w ++ rest) = (w ++ line) :: lines := by
      rw [splitCrlf_append_left fun hm => absurd (hw 13 hm) (by decide), hlines]
      rfl
    have hfirst : requestLine (w ++ line) = (w, target, version, extra) := by
      rw [requestLine_append fun hm => absurd (hw 32 hm) (by decide), hline, List.append_nil]
    have hempty : w.isEmpty = false := by simpa using hne
    unfold readRequest
    simp only [htext, hform, hsplit, List.headD_cons, List.tail_cons, hfirst, hempty, Bool.not_true, Bool.false_or,
      Bool.false_eq_true, if_false]
    cases fieldLines ⟨version == str "HTTP/1.1", [], [], [], false, false⟩ lines <;> rfl
  by_cases h1 : extra = true
  · exact .inl fun w hne hw => by rw [hread w hne hw, if_pos h1]
  by_cases h2 : (target.isEmpty || version.isEmpty) = true
  · exact .inl fun w hne hw => by rw [hread w hne hw, if_neg h1, if_pos h2]
  by_cases h3 : (version != str "HTTP/1.1" && version != str "HTTP/1.0") = true
  · exact .inl fun w hne hw => by rw [hread w hne hw, if_neg h1, if_neg h2, if_pos h3]
  by_cases h4 : target.any isControl = true
  · exact .inl fun w hne hw => by rw [hread w hne hw, if_neg h1, if_neg h2, if_neg h3, if_pos h4]
  cases hfields : fieldLines ⟨version == str "HTTP/1.1", [], [], [], false, false⟩ lines with
  | none => exact .inl fun w hne hw => by rw [hread w hne hw, if_neg h1, if_neg h2, if_neg h3, if_neg h4, hfields,
      Option.elim_none]
  | some fields =>
    by_cases h5 : fields.hasBody = true
    · refine .inl fun w hne hw => ?_
      rw [hread w hne hw, if_neg h1, if_neg h2, if_neg h3, if_neg h4, hfields]
      exact if_pos h5
    · refine .inr ⟨target, version, fields, fun w hne hw => ?_⟩
      rw [hread w hne hw, if_neg h1, if_neg h2, if_neg h3, if_neg h4, hfields]
      exact if_neg h5

/-! ## Two replies -/

/-- The reply to a HEAD beside the one to the GET: the same bytes up to and including the first blank
line, nothing more, and the same keep-alive value. -/
structure Reply.Mirrors (r g : Reply) : Prop where
  out : ∃ p, FirstAt crlfcrlf g.out p ∧ r.out = g.out.take (p + crlfcrlf.length)
  result : r.result = g.result

/-- Two responses with one head, the second without a body. -/
theorem mirrors_of_render {r g : Reply} {a b : Response} (hg : g.out = a.render) (hr : r.out = b.render)
    (hhead : b.head = a.head) (hbody : b.body = []) (hreason : 10 ∉ a.reason) (hfields : Response.OneLine a.fields)
    (hresult : r.result = g.result) : r.Mirrors g := by
  have hlen : a.head.length - 4 + crlfcrlf.length = a.head.length := Nat.sub_add_cancel (Response.length_head a)
  refine ⟨⟨a.head.length - 4, ?_, ?_⟩, hresult⟩
  · rw [hg]
    exact (Response.firstAt_head hreason hfields).1
  · rw [hr, hg, hlen, Response.render, Response.render, hbody, hhead, List.append_nil, List.take_left]

section

variable {h : HeaderConfig} {fs : FileSys} {keepAlive : Bool}

theorem mirrors_sendError (hc : Clean h.csp) {page : StatusResponse} (hpage : page ∈ (ErrorPages.new h.render).pages)
    (result : Bool) : (say (sendError page keepAlive true) result).Mirrors (say (sendError page keepAlive false) result) := by
  obtain ⟨code, reason, rfl, hcode, hreason⟩ := errorPages_built hpage
  have hframed : (statusResponse code reason h keepAlive false).WellFramed false := statusResponse_wellFramed hcode hreason hc
  exact mirrors_of_render (sendError_render code reason h keepAlive false) (sendError_render code reason h keepAlive true)
    rfl rfl hreason.no_lf hframed.fields.oneLine rfl

theorem mirrors_sendRedirect (hc : Clean h.csp) {p : Policy} (hp : PolicyOf h p) {location : Str} (hl : ∀ b ∈ location, b ≠ 10) :
    (say (sendRedirect location keepAlive p.securityHeaders) keepAlive).Mirrors
      (say (sendRedirect location keepAlive p.securityHeaders) keepAlive) := by
  have hone := @redirectResponse_oneLine h keepAlive hc location fun hm => hl 10 hm rfl
  have hout := sendRedirect_render location keepAlive h
  rw [← hp.securityHeaders] at hout
  exact mirrors_of_render hout hout rfl rfl hone.1 hone.2 rfl

theorem mirrors_serveAcmeToken (hc : Clean h.csp) {p : Policy} (hp : PolicyOf h p) (root : Path) (decoded : Str) :
    (serveAcmeToken fs root decoded keepAlive true p).Mirrors (serveAcmeToken fs root decoded keepAlive false p) := by
  have hresult : ∀ isHead, (serveAcmeToken fs root decoded keepAlive isHead p).result = some keepAlive := by
    intro isHead
    unfold serveAcmeToken
    simp only
    split <;> rfl
  have hresult := (hresult true).trans (hresult false).symm
  rcases serveAcmeToken_either fs root decoded keepAlive p h hp.securityHeaders with hout | ⟨body, hout⟩
  · have herr := @mirrors_sendError h keepAlive hc p.errors.notFound (by rw [hp.errors]; simp [ErrorPages.pages]) keepAlive
    exact ⟨by rw [hout, hout]; exact herr.out, hresult⟩
  · have hframed : (tokenResponse body keepAlive false h).WellFramed false := tokenResponse_wellFramed hc
    exact mirrors_of_render (hout false) (hout true) rfl rfl hframed.reason.no_lf hframed.fields.oneLine hresult

/-- Every snapshot file the site points at opens and reads to its end. -/
def Site.Intact (fs : FileSys) (site : Site) : Prop :=
  ∀ url d, site.cache.map.lookup url = some (.disk d) →
    ∀ v ∈ d.variants, ∃ reads content, fs.snapshot v.path = some reads ∧ ReadsTo reads content

def SnapshotsIntact (fs : FileSys) (vhosts : Vhosts) : Prop :=
  ∀ host site, vhosts.sites.lookup host = some site → site.Intact fs

/-- A file's answer to a HEAD has the head of its answer to a GET, and no body. -/
theorem fileResponse_head (c : Compressors) (mime : Str) (data : Bytes) (p : Policy) (h : HeaderConfig)
    (url acceptEnc inm : Str) (keepAlive : Bool) (content content' : Bytes) :
    (fileResponse c mime data p h url acceptEnc inm keepAlive true content').head =
        (fileResponse c mime data p h url acceptEnc inm keepAlive false content).head ∧
      (fileResponse c mime data p h url acceptEnc inm keepAlive true content').body = [] := by
  unfold fileResponse variantResponse
  simp only
  split
  · exact ⟨rfl, rfl⟩
  · exact ⟨rfl, rfl⟩

theorem mirrors_serveCached {site : Site} (hs : SafeSite h site)
    (hfs : site.Intact fs)
    {url : Str} {e : Cached} (he : site.cache.map.lookup url = some e) (acceptEnc inm : Str) :
    (serveCached fs e acceptEnc inm keepAlive true site.policy).Mirrors
      (serveCached fs e acceptEnc inm keepAlive false site.policy) := by
  have hp := hs.policy
  have hmirror : ∀ {c data content content'} {r g : Reply},
      g.out = (fileResponse c (mimeFor url) data site.policy h url acceptEnc inm keepAlive false content).render →
      r.out = (fileResponse c (mimeFor url) data site.policy h url acceptEnc inm keepAlive true content').render →
      r.result = g.result → r.Mirrors g := by
    intro c data content content' r g hg hr hresult
    obtain ⟨hhead, hbody⟩ := fileResponse_head c (mimeFor url) data site.policy h url acceptEnc inm keepAlive content content'
    obtain ⟨hreason, hfields⟩ := fileResponse_clean keepAlive false c data url acceptEnc inm content hs.csp hp
    exact mirrors_of_render hg hr hhead hbody hreason.no_lf hfields.oneLine hresult
  obtain ⟨c, data, rfl | ⟨bd, rfl⟩⟩ := hs.entries url e he
  · simp only [serveCached, serveMem_makeCached hp rfl]
    exact hmirror rfl rfl rfl
  · obtain ⟨ns, hmem, -, hget⟩ := serveDisk_diskEntry (c := c) hp (rfl : mimeFor url = _) fs data bd acceptEnc inm keepAlive false
    obtain ⟨_, -, -, hhead⟩ := serveDisk_diskEntry (c := c) hp (rfl : mimeFor url = _) fs data bd acceptEnc inm keepAlive true
    rw [Bool.or_true, if_pos rfl] at hhead
    simp only [serveCached, hget, hhead]
    split
    · exact hmirror rfl rfl rfl
    · obtain ⟨v, hv, hpath, -⟩ := diskVariant_mem url bd hmem
      obtain ⟨reads, content, hsnap, hreads⟩ := hfs url _ he v hv
      rw [hpath] at hsnap
      simp only [hsnap, streamBody_readsTo hreads]
      exact hmirror rfl rfl rfl

/-! ## The request -/

variable {site : Site} {vhosts : Vhosts} {hostKey decoded : Str} {redirectHttps : Bool} {req : Request}

theorem mirrors_serveContent (hs : SafeSite h site)
    (hfs : site.Intact fs)
    (hin : InputsAll (· ≠ 10) vhosts hostKey req.target) (hget : req.method = str "GET") :
    (serveContent fs site vhosts { req with method := str "HEAD" } hostKey (targetQuery req.target) decoded keepAlive
        redirectHttps).Mirrors
      (serveContent fs site vhosts req hostKey (targetQuery req.target) decoded keepAlive redirectHttps) := by
  have hp := hs.policy
  have hhead : req.isHead = false ∧ ({ req with method := str "HEAD" } : Request).isHead = true := by
    rw [Request.isHead, hget]
    exact ⟨by decide, rfl⟩
  have hnotFound := @mirrors_sendError h keepAlive hs.csp site.policy.errors.notFound
    (by rw [hp.errors]; simp [ErrorPages.pages]) keepAlive
  unfold serveContent
  simp only [hhead]
  split
  · cases site.root with
    | some root => exact mirrors_serveAcmeToken hs.csp hp root decoded
    | none => exact hnotFound
  · cases hres : resolve site.cache.map decoded with
    | none => exact hnotFound
    | some r =>
      cases r with
      | entry e =>
        obtain ⟨url, -, he⟩ := List.exists_of_findSome?_eq_some (resolve_entry hres)
        exact mirrors_serveCached hs hfs he _ _
      | dirIndex => exact mirrors_sendRedirect hs.csp hp (hin.dirLocation decoded)

theorem mirrors_handleSite (hs : SafeSite h site)
    (hfs : site.Intact fs)
    (hin : InputsAll (· ≠ 10) vhosts hostKey req.target) (hget : req.method = str "GET") :
    (handleSite fs site vhosts { req with method := str "HEAD" } hostKey keepAlive redirectHttps).Mirrors
      (handleSite fs site vhosts req hostKey keepAlive redirectHttps) := by
  have hp := hs.policy
  have hhead : req.isHead = false ∧ ({ req with method := str "HEAD" } : Request).isHead = true := by
    rw [Request.isHead, hget]
    exact ⟨by decide, rfl⟩
  have hbad := @mirrors_sendError h false hs.csp site.policy.errors.badRequest
    (by rw [hp.errors]; simp [ErrorPages.pages]) false
  unfold handleSite
  simp only [hhead, hget, bne_self_eq_false, Bool.false_and, Bool.not_true, Bool.and_false, Bool.false_eq_true, if_false]
  split
  · exact hbad
  cases hdec : (percentDecode (targetPath req.target)).bind fromUtf8 with
  | none => exact hbad
  | some decoded =>
    simp only
    split
    · rename_i location hloc
      exact mirrors_sendRedirect hs.csp hp (hin.redirectFor hs.redirects hloc)
    · exact mirrors_serveContent hs hfs hin hget

/-- A table of an accepted config answers a HEAD as it answers the GET, without the body. -/
theorem VhostsFrom.mirrors {c : Compressors} {cfg : Config} (hfrom : VhostsFrom c cfg vhosts) (hc : cfg.Clean)
    (hline : cfg.OneLine) (hfs : SnapshotsIntact fs vhosts) {head : Bytes} (hu : isUtf8 head = true)
    (hw : wellFormedHead head = true) (hm : methodOf head = str "GET") (wantKa redirectHttps : Bool) (sni : Option Str) :
    (handleRequest fs (asHead head) vhosts wantKa redirectHttps sni).Mirrors
      (handleRequest fs head vhosts wantKa redirectHttps sni) := by
  have hgraph : (str "GET").all isGraph = true ∧ (str "HEAD").all isGraph = true := by decide
  have hwords : (str "GET" ≠ [] ∧ ∀ b ∈ str "GET", isGraph b = true) ∧ str "HEAD" ≠ [] ∧ ∀ b ∈ str "HEAD", isGraph b = true :=
    ⟨⟨by decide, List.all_eq_true.1 hgraph.1⟩, by decide, List.all_eq_true.1 hgraph.2⟩
  obtain ⟨rest, rfl, hword⟩ := getHead_of_method hm
  have hrest : isUtf8 rest = true := by rwa [isUtf8_append (by decide)] at hu
  have hpage : ∀ {page}, page ∈ vhosts.errors.pages → ∀ keepAlive,
      (say (sendError page keepAlive true) keepAlive).Mirrors (say (sendError page keepAlive false) keepAlive) :=
    fun hpage keepAlive => mirrors_sendError hc.csp (hfrom.errors ▸ hpage) keepAlive
  show (handleRequest fs (str "HEAD" ++ rest) vhosts wantKa redirectHttps sni).Mirrors _
  unfold handleRequest
  rw [wellFormedHead_graph hwords.1.2] at hw
  rcases readRequest_word hrest hw hword with hread | ⟨target, version, fields, hread⟩
  · rw [hread _ hwords.1.1 hwords.1.2, hread _ hwords.2.1 hwords.2.2]
    exact hpage (by simp [ErrorPages.pages]) false
  · have hreq := hread _ hwords.1.1 hwords.1.2
    rw [hreq, hread _ hwords.2.1 hwords.2.2]
    have hnotFound := @hpage vhosts.errors.notFound (by simp [ErrorPages.pages]) (fields.keepAlive && wantKa)
    simp only
    unfold handleAccepted
    simp only
    split
    · exact hnotFound
    cases hsite : vhosts.sites.lookup (normalizeHost fields.hostHdr) with
    | none => exact hnotFound
    | some site =>
      obtain ⟨s, hs, hhost, hsf⟩ := hfrom.sites.site _ _ hsite
      exact @mirrors_handleSite _ fs _ site vhosts _ _ ⟨str "GET", target, version, fields⟩
        (safeSite_of_from hc hs hsf) (hfs _ _ hsite)
        (hfrom.inputs hline hs hhost (clean_iff.2 (readRequest_ok hreq).target)) rfl

end

/-- A head with HEAD in place of GET gets the response to the GET up to and including its blank line, nothing
more, and the same keep-alive value. -/
theorem handleRequest_mirrors (c : Compressors) (text : Str) (cfg : Config) (hparse : parseConfig text = .ok cfg)
    (history : Nat → World) (seq start : Nat) (vhosts : Vhosts)
    (hbuild : ((buildVhosts c cfg seq : Look Unit _).run history start).value.1 = .ok vhosts) (fs : FileSys)
    (hfs : SnapshotsIntact fs vhosts) (head : Bytes) (hu : isUtf8 head = true) (hw : wellFormedHead head = true)
    (hm : methodOf head = str "GET") (wantKa redirectHttps : Bool) (sni : Option Str) :
    (handleRequest fs (asHead head) vhosts wantKa redirectHttps sni).Mirrors
      (handleRequest fs head vhosts wantKa redirectHttps sni) :=
  ((buildVhosts_from (E := Unit) seq start).2 vhosts hbuild).mirrors (parseConfig_clean hparse) (parseConfig_oneLine hparse)
    hfs hu hw hm wantKa redirectHttps sni

/-- A machine whose document root has one page. -/
def pageWorld : World := .rootedAt (.dir (some [(str "a.html", .file ⟨4, none⟩ (some (str "page")))]))

/-- Of a page kept on disk a GET gets the header and the snapshot's bytes, a HEAD the header. -/
theorem handleRequest_mirrors_stored :
    let text := str "listen = [::]:443\nstorage = disk\ndisk_cache = /d\nsite a.example \x7b\n cert = /c\n key = /k\n root = /www\n\x7d\n"
    let fs : FileSys := ⟨fun _ => some [some (str "pa"), some (str "ge")], fun _ => none, fun _ => none⟩
    let get := str "GET /a.html HTTP/1.1\r\nHost: a.example\r\n\r\n"
    let head := str "HEAD /a.html HTTP/1.1\r\nHost: a.example\r\n\r\n"
    ∃ cfg vhosts, parseConfig text = .ok cfg ∧
      ((buildVhosts ⟨fun b _ => b, fun b _ => b⟩ cfg 0 : Look Unit _).run (fun _ => pageWorld) 0).value.1 = .ok vhosts ∧
      (handleRequest fs get vhosts true false none).opened.length = 1 ∧
      str "page" <:+ (handleRequest fs get vhosts true false none).out ∧
      (handleRequest fs head vhosts true false none).Mirrors (handleRequest fs get vhosts true false none) := by
  intro text fs get head
  have hchecks : (parseConfig text).toOption.any (fun cfg =>
      ((buildVhosts ⟨fun b _ => b, fun b _ => b⟩ cfg 0 : Look Unit _).run (fun _ => pageWorld) 0).value.1.toOption.any
        fun vhosts => (handleRequest fs get vhosts true false none).opened.length == 1 &&
          (str "page").isSuffixOf (handleRequest fs get vhosts true false none).out) = true := by
    decide +kernel
  obtain ⟨cfg, hcfg, hbuilt⟩ := ok_of_any hchecks
  obtain ⟨vhosts, hbuild, hok⟩ := ok_of_any hbuilt
  simp only [Bool.and_eq_true, beq_iff_eq, List.isSuffixOf_iff_suffix] at hok
  have hreads : ReadsTo [some (str "pa"), some (str "ge")] (str "page") :=
    ⟨[str "pa", str "ge"], rfl, by decide, rfl⟩
  have hfs : SnapshotsIntact fs vhosts := fun _ _ _ _ _ _ _ _ => ⟨_, _, rfl, hreads⟩
  have hhead : asHead get = head := by decide
  refine ⟨cfg, vhosts, hcfg, hbuild, hok.1, hok.2, ?_⟩
  rw [← hhead]
  exact handleRequest_mirrors _ text cfg hcfg _ 0 0 vhosts hbuild fs hfs _ (by decide) (by decide) (by decide) true false none

end BareServer
