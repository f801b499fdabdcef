/-
What each listener answers with. Over the plain one a site that forces TLS gives redirects and nothing
else, to HTTPS or to where an absolute rule sends; the challenge prefix is never redirected, and on
either listener its tokens are answered from their files.
-/
import BareServer.Serve.Origin

namespace BareServer

open BareServer.Lib

/-! ## Requests of a site -/

def Request.fetches (r : Request) : Bool := r.method == str "GET" || r.isHead

/-- A request that got through to a site: its head was read, its host is one of the table's and the one
the TLS handshake named, if that named one, and its path decodes. -/
structure Reached (vhosts : Vhosts) (sni : Option Str) (head : Bytes) (req : Request) (site : Site) (decoded : Str) :
    Prop where
  read : readRequest head = .ok req
  sni : ∀ s, sni = some s → s = normalizeHost req.fields.hostHdr
  site : vhosts.sites.lookup (normalizeHost req.fields.hostHdr) = some site
  slash : str "/" <+: targetPath req.target
  short : (targetPath req.target).length < maxPathLen
  decoded : (percentDecode (targetPath req.target)).bind fromUtf8 = some decoded

section

variable {fs : FileSys} {vhosts : Vhosts} {sni : Option Str} {head : Bytes} {req : Request} {site : Site} {decoded : Str}

variable (fs) in
/-- What a request that got through is answered with. -/
theorem Reached.reply (hr : Reached vhosts sni head req site decoded) (wantKa redirectHttps : Bool) :
    handleRequest fs head vhosts wantKa redirectHttps sni =
      if req.fetches then
        match redirectFor site vhosts (normalizeHost req.fields.hostHdr) req.target (targetPath req.target)
            (targetQuery req.target) decoded redirectHttps with
        | some location =>
          say (sendRedirect location (req.fields.keepAlive && wantKa) site.policy.securityHeaders)
            (req.fields.keepAlive && wantKa)
        | none =>
          serveContent fs site vhosts req (normalizeHost req.fields.hostHdr) (targetQuery req.target) decoded
            (req.fields.keepAlive && wantKa) redirectHttps
      else
        say (sendError site.policy.errors.methodNotAllowed (req.fields.keepAlive && wantKa) req.isHead)
          (req.fields.keepAlive && wantKa) := by
  have hsni : (sni.map fun s => s != normalizeHost req.fields.hostHdr).getD false = false := by
    cases hs : sni with
    | none => rfl
    | some s => simp [hr.sni s hs]
  have hpath : ((targetPath req.target).isEmpty || !(str "/").isPrefixOf (targetPath req.target) ||
      decide (maxPathLen ≤ (targetPath req.target).length)) = false := by
    have hne : (targetPath req.target).isEmpty = false := by
      obtain ⟨t, ht⟩ := hr.slash
      rw [← ht, str_slash]
      rfl
    have hshort := hr.short
    simp only [hne, List.isPrefixOf_iff_prefix.2 hr.slash, Bool.not_true, Bool.or_self, Bool.false_or,
      decide_eq_false_iff_not]
    omega
  unfold handleRequest
  rw [hr.read]
  simp only
  unfold handleAccepted
  simp only [hsni, Bool.false_eq_true, if_false, hr.site]
  unfold handleSite
  simp only [hpath, hr.decoded, Bool.false_eq_true, if_false]
  cases hf : req.fetches with
  | false =>
    unfold Request.fetches at hf
    rw [Bool.or_eq_false_iff] at hf
    rw [if_pos (by rw [bne, hf.1, hf.2]; rfl), if_neg Bool.false_ne_true]
  | true =>
    unfold Request.fetches at hf
    rw [Bool.or_eq_true] at hf
    exact (if_neg (by rcases hf with h | h <;> simp [bne, h])).trans (if_pos rfl).symm

end

/-! ## Tokens -/

/-- Where the token named `tok` of a site with root `root` stands. -/
def tokenPath (root : Path) (tok : Str) : Path := join (join (join root (str ".well-known")) (str "acme-challenge")) tok

/-- One component of the token alphabet. -/
structure IsToken (tok : Str) : Prop where
  nonempty : tok ≠ []
  short : tok.length ≤ acmeTokenMaxLen
  alphabet : ∀ b ∈ tok, isTokenByte b = true

/-- Neither directory on the way to the tokens of `root` is a symlink. -/
structure PlainParents (fs : FileSys) (root : Path) : Prop where
  wellKnown : fs.isSymlink (join root (str ".well-known")) = some false
  challenge : fs.isSymlink (join (join root (str ".well-known")) (str "acme-challenge")) = some false

/-- A regular file under one name, of no more than the size of a token. -/
structure TokenFile.Plain (f : TokenFile) : Prop where
  isFile : f.isFile = true
  nlink : f.nlink = 1
  len : f.len ≤ acmeTokenMaxBytes

/-- The token `tok` under `root` can be read, and reads as `data`. -/
structure TokenReads (fs : FileSys) (root : Path) (tok : Str) (data : Bytes) : Prop where
  parents : PlainParents fs root
  file : ∃ f, fs.token (tokenPath root tok) = some f ∧ f.Plain ∧ f.data = some data
  fits : data.length ≤ acmeTokenMaxBytes

section

variable {fs : FileSys} {root : Path} {tok : Str} {keepAlive isHead : Bool} {policy : Policy}

/-- The answer to a path under the challenge prefix: the file is opened for a token below plain
directories, and served when it is a plain one. -/
theorem serveAcmeToken_cases (fs : FileSys) (root : Path) (tok : Str) (keepAlive isHead : Bool) (policy : Policy) :
    ((¬ (IsToken tok ∧ PlainParents fs root)) ∧
      serveAcmeToken fs root (acmePrefix ++ tok) keepAlive isHead policy =
        ⟨sendError policy.errors.notFound keepAlive isHead, [], some keepAlive⟩) ∨
    (IsToken tok ∧ PlainParents fs root ∧
      serveAcmeToken fs root (acmePrefix ++ tok) keepAlive isHead policy =
        match readTokenFile fs (tokenPath root tok) with
        | none => ⟨sendError policy.errors.notFound keepAlive isHead, [tokenPath root tok], some keepAlive⟩
        | some body =>
          ⟨str "HTTP/1.1 200 OK\r\n" ++ str "Content-Type: text/plain; charset=utf-8\r\n" ++
              str "Content-Length: " ++ dec body.length ++ str "\r\n" ++ str "Cache-Control: no-store\r\n" ++
              str "Connection: " ++ connWord keepAlive ++ str "\r\n" ++ policy.securityHeaders ++ str "\r\n" ++
              (if isHead then [] else body), [tokenPath root tok], some keepAlive⟩) := by
  have hready : (((!tok.isEmpty && decide (tok.length ≤ acmeTokenMaxLen) && tok.all isTokenByte) &&
      (fs.isSymlink (join root (str ".well-known")) == some false) &&
      (fs.isSymlink (join (join root (str ".well-known")) (str "acme-challenge")) == some false)) = true) ↔
      IsToken tok ∧ PlainParents fs root := by
    simp only [Bool.and_eq_true, Bool.not_eq_true', List.isEmpty_eq_false_iff, decide_eq_true_eq, List.all_eq_true,
      beq_iff_eq]
    constructor
    · rintro ⟨⟨⟨⟨hne, hlen⟩, hall⟩, hwk⟩, hch⟩
      exact ⟨⟨hne, hlen, hall⟩, hwk, hch⟩
    · rintro ⟨⟨hne, hlen, hall⟩, hwk, hch⟩
      exact ⟨⟨⟨⟨hne, hlen⟩, hall⟩, hwk⟩, hch⟩
  unfold serveAcmeToken
  rw [List.drop_left]
  simp only
  by_cases h : IsToken tok ∧ PlainParents fs root
  · rw [if_pos (hready.2 h), if_pos (hready.2 h)]
    exact .inr ⟨h.1, h.2, rfl⟩
  · rw [if_neg (mt hready.1 h), if_neg (mt hready.1 h)]
    exact .inl ⟨h, rfl⟩

variable (keepAlive isHead) in
/-- A token that can be read is served. -/
theorem serveAcmeToken_reads {h : HeaderConfig} (hp : PolicyOf h policy) (ht : IsToken tok) {data : Bytes}
    (hreads : TokenReads fs root tok data) :
    (serveAcmeToken fs root (acmePrefix ++ tok) keepAlive isHead policy).out =
      (tokenResponse data keepAlive isHead h).render := by
  obtain ⟨e1, e2, e3, e4, e5⟩ := tokenTexts
  obtain ⟨f, hf, hplain, hdata⟩ := hreads.file
  have hread : readTokenFile fs (tokenPath root tok) = some data := by
    have hlen := hplain.len
    unfold readTokenFile
    simp only [hf, hplain.isFile, hplain.nlink, hdata, Bool.not_true, bne_self_eq_false, Bool.or_self, Bool.false_or,
      decide_eq_true_eq, Option.map_some, List.take_of_length_le hreads.fits]
    rw [if_neg (by omega)]
  rcases serveAcmeToken_cases fs root tok keepAlive isHead policy with ⟨hno, -⟩ | ⟨-, -, hserve⟩
  · exact absurd ⟨ht, hreads.parents⟩ hno
  · rw [hserve, hread]
    simp only [hp.securityHeaders, render_eq, e1, e2, e3, e4, e5, tokenResponse, Response.render, Response.head,
      Response.lines, connField, List.flatMap_cons, List.append_assoc, List.nil_append, List.cons_append, renderField]

end

/-! ## The policy of the listeners -/

/-- A Location that an absolute rule target of `lines` expands to, with the query unless it has one. -/
def ExpandsAbsolute (lines : List (Str × Str)) (req : Request) (location : Str) : Prop :=
  ∃ pattern target cap, (pattern, target) ∈ lines ∧ isAbsolute target = true ∧
    (location = expand target (targetPath req.target) cap ∨
      location = expand target (targetPath req.target) cap ++ targetQuery req.target)

section

variable {fs : FileSys} {vhosts : Vhosts} {site : Site} {req : Request} {hostKey decoded : Str}
  {lines : List (Str × Str)} {r : Redirects}

/-- What a rule of `lines` that decides a path sends it to. -/
theorem location_of_rule (hrules : Redirects.pushLines default lines = .ok r) (hpath : str "/" <+: targetPath req.target)
    {dest : Str} (hd : r.finish.resolve (targetPath req.target) = some dest) (authority : Str) :
    str "https://" <+: ruleLocation (str "https") authority dest (targetQuery req.target) ∨
      ExpandsAbsolute lines req (ruleLocation (str "https") authority dest (targetQuery req.target)) := by
  rw [Redirects.resolve_eq, Option.map_eq_some_iff] at hd
  obtain ⟨⟨t, cap⟩, hdec, rfl⟩ := hd
  have hdecides := (Redirects.pushLines_records Redirects.records_nil hrules).decides (targetPath req.target)
  rw [hdec] at hdecides
  obtain ⟨p, hrule⟩ := hdecides.rule
  obtain ⟨⟨pattern, target⟩, hline, heq⟩ := List.mem_map.1 hrule
  cases heq
  have hhttps : str "https://" = str "https" ++ str "://" := by decide
  show str "https://" <+: ruleLocation _ _ (expand target (targetPath req.target) cap) _ ∨
    ExpandsAbsolute lines req (ruleLocation _ _ (expand target (targetPath req.target) cap) _)
  cases habs : isAbsolute target with
  | true =>
    have hdest : isAbsolute (expand target (targetPath req.target) cap) = true := isAbsolute_expand habs
    rw [isAbsolute, Bool.or_comm] at hdest
    refine .inr ⟨pattern, target, cap, hline, habs, ?_⟩
    unfold ruleLocation
    simp only [hdest]
    cases (expand target (targetPath req.target) cap).contains 63 with
    | true => exact .inl rfl
    | false => exact .inr rfl
  | false =>
    -- a target that is not absolute expands to a path of this host
    have hdest := not_absolute_of_slash (rooted_of_pushLines hrules _ target cap hpath hdec habs)
    rw [isAbsolute, Bool.or_comm] at hdest
    refine .inl ?_
    unfold ruleLocation
    simp only [hdest]
    cases (expand target (targetPath req.target) cap).contains 63 <;>
      simp only [hhttps, List.append_assoc, List.prefix_append_right_inj, List.prefix_append]

variable (vhosts hostKey) in
/-- Off the challenge prefix, the plain listener of a site that forces TLS always redirects. -/
theorem redirectFor_forced (hssl : site.forceSsl = true) (hrules : Redirects.pushLines default lines = .ok r)
    (hred : site.redirects = r.finish) (hpath : str "/" <+: targetPath req.target)
    (hacme : ¬ acmePrefix <+: decoded) :
    ∃ location, redirectFor site vhosts hostKey req.target (targetPath req.target) (targetQuery req.target) decoded true =
        some location ∧ (str "https://" <+: location ∨ ExpandsAbsolute lines req location) := by
  have hoff : acmePrefix.isPrefixOf decoded = false := by
    rw [Bool.eq_false_iff, ne_eq, List.isPrefixOf_iff_prefix]
    exact hacme
  have hhttps : str "https://" = str "https" ++ str "://" := by decide
  unfold redirectFor
  simp only [hoff, hssl, Bool.not_true, Bool.and_false, Bool.false_eq_true, if_false, Bool.and_true, if_true]
  cases hres : site.redirects.resolve (targetPath req.target) with
  | some dest =>
    rw [hred] at hres
    exact ⟨_, rfl, location_of_rule hrules hpath hres _⟩
  | none =>
    cases (if site.canonicalUrls then canonicalForm decoded else none) with
    | some canon =>
      exact ⟨_, rfl, .inl (by simp only [hhttps, List.append_assoc, List.prefix_append_right_inj, List.prefix_append])⟩
    | none => exact ⟨_, rfl, .inl (by simp only [List.append_assoc, List.prefix_append])⟩

/-- Below the challenge prefix no stage redirects. -/
theorem redirectFor_acme (hacme : acmePrefix <+: decoded) (target path query : Str) (redirectHttps : Bool) :
    redirectFor site vhosts hostKey target path query decoded redirectHttps = none := by
  unfold redirectFor
  simp only [List.isPrefixOf_iff_prefix.2 hacme, if_true]

theorem statusOf_sendRedirect_eq (h : HeaderConfig) (location : Str) (keepAlive : Bool) :
    statusOf (sendRedirect location keepAlive h.render) = str "301" := by
  rw [sendRedirect_render, statusOf_render]
  · show dec 301 = str "301"
    decide
  · show (dec 301).length = 3
    decide

/-- Below the challenge prefix there is no 301. -/
theorem Reached.unmoved_acme {h : HeaderConfig} {sni : Option Str} {head : Bytes} (hp : PolicyOf h site.policy)
    (hr : Reached vhosts sni head req site decoded) (hacme : acmePrefix <+: decoded)
    (wantKa redirectHttps : Bool) :
    Unmoved (handleRequest fs head vhosts wantKa redirectHttps sni) := by
  rw [hr.reply fs wantKa redirectHttps, redirectFor_acme hacme]
  have hprefix := List.isPrefixOf_iff_prefix.2 hacme
  cases req.fetches with
  | false =>
    rw [hp.errors]
    exact unmoved_sendError (by decide) rfl
  | true =>
    simp only [if_true, serveContent, hprefix]
    cases site.root with
    | some root => exact unmoved_serveAcmeToken hp root decoded _ req.isHead
    | none =>
      rw [hp.errors]
      exact unmoved_sendError (by decide) rfl

/-- Over the plain listener, a GET or HEAD that got through to a site with forced TLS is redirected, to HTTPS
or to where an absolute rule sends it, unless its decoded path is under the challenge prefix. There, over
either listener and for every site, nothing is redirected and a token that can be read is answered with. -/
theorem listener_policy {h : HeaderConfig} (hp : PolicyOf h site.policy)
    (hrules : Redirects.pushLines default lines = .ok r) (hred : site.redirects = r.finish) {sni : Option Str}
    {head : Bytes} (hr : Reached vhosts sni head req site decoded) (wantKa : Bool) :
    (site.forceSsl = true → req.fetches = true → ¬ acmePrefix <+: decoded →
      ∃ location keepAlive,
        handleRequest fs head vhosts wantKa true sni =
          say (sendRedirect location keepAlive site.policy.securityHeaders) keepAlive ∧
        statusOf (handleRequest fs head vhosts wantKa true sni).out = str "301" ∧
        (str "https://" <+: location ∨ ExpandsAbsolute lines req location)) ∧
    (acmePrefix <+: decoded → ∀ redirectHttps,
      statusOf (handleRequest fs head vhosts wantKa redirectHttps sni).out ≠ str "301" ∧
      ∀ root tok data, req.fetches = true → site.root = some root → decoded = acmePrefix ++ tok → IsToken tok →
        TokenReads fs root tok data →
        (handleRequest fs head vhosts wantKa redirectHttps sni).out =
            (tokenResponse data (req.fields.keepAlive && wantKa) req.isHead h).render ∧
          statusOf (handleRequest fs head vhosts wantKa redirectHttps sni).out = str "200") := by
  refine ⟨fun hssl hf hacme => ?_, fun hacme redirectHttps => ?_⟩
  · obtain ⟨location, hloc, hdest⟩ := redirectFor_forced vhosts (normalizeHost req.fields.hostHdr)
      hssl hrules hred hr.slash hacme
    have hreply := hr.reply fs wantKa true
    rw [hf, if_pos rfl, hloc] at hreply
    refine ⟨location, _, hreply, ?_, hdest⟩
    rw [hreply]
    show statusOf (sendRedirect _ _ _) = _
    rw [hp.securityHeaders]
    exact statusOf_sendRedirect_eq h _ _
  · refine ⟨hr.unmoved_acme hp hacme wantKa redirectHttps, ?_⟩
    have hreply := hr.reply fs wantKa redirectHttps
    rw [redirectFor_acme hacme] at hreply
    rw [hreply]
    have hprefix := List.isPrefixOf_iff_prefix.2 hacme
    rintro root tok data hf hroot rfl htok hreads
    have hout := serveAcmeToken_reads (req.fields.keepAlive && wantKa) req.isHead hp htok hreads
    simp only [hf, if_true, serveContent, hprefix, hroot, hout]
    exact ⟨trivial, statusOf_ok rfl⟩

end

/-- A site under `/w` that forces TLS, with one catch-all rule to another host. -/
def movedSite : Site :=
  ⟨0, some (str "/w"), .empty, true, true, ⟨∅, [], some (str "http://b.example$0")⟩,
    .withHeaders .default .default .memory (str "/cache")⟩

def movedTable : Vhosts where
  sites := (∅ : Sites).insert (str "a.example") movedSite
  httpsPort := str "443"
  httpPort := str "80"
  errors := .new (str "X: y\r\n")

/-- One token below plain directories. -/
def oneToken : FileSys where
  snapshot _ := none
  isSymlink _ := some false
  token path := if path == str "/w/.well-known/acme-challenge/t" then some ⟨true, 1, 3, some (str "key")⟩ else none

/-- A page goes where the rule sends it; the token behind an escaped prefix is served. -/
theorem listener_policy_moved :
    let page := str "GET /x?q HTTP/1.1\r\nHost: a.example\r\n\r\n"
    let token := str "GET /.well-known/acme%2Dchallenge/t HTTP/1.1\r\nHost: a.example\r\n\r\n"
    statusOf (handleRequest oneToken page movedTable true true none).out = str "301" ∧
    (handleRequest oneToken token movedTable true true none).out =
      (tokenResponse (str "key") true false .default).render := by
  intro page token
  have hp : PolicyOf .default movedSite.policy := policyOf_withHeaders _ _ _ _
  have hrules : Redirects.pushLines default [(str "*", str "http://b.example$0")] =
      .ok ⟨∅, [], some (str "http://b.example$0")⟩ := by rfl
  have hreads : TokenReads oneToken (str "/w") (str "t") (str "key") :=
    ⟨⟨rfl, rfl⟩, ⟨_, by rfl, ⟨rfl, rfl, by decide⟩, rfl⟩, by decide⟩
  have hpage : ∃ req, Reached movedTable none page req movedSite (str "/x") ∧ req.fetches = true := by
    refine ⟨_, ⟨rfl, (fun _ h => by cases h), by rfl, by decide, by decide, by rfl⟩, by decide⟩
  have htoken : ∃ req, Reached movedTable none token req movedSite (acmePrefix ++ str "t") ∧
      req.fetches = true ∧ req.isHead = false ∧ req.fields.keepAlive = true := by
    refine ⟨_, ⟨rfl, (fun _ h => by cases h), by rfl, by decide, by decide, by rfl⟩, by decide, by decide, by decide⟩
  obtain ⟨req, hr, hf⟩ := hpage
  obtain ⟨req', hr', hf', hhead, hka⟩ := htoken
  obtain ⟨-, -, -, hmoved, -⟩ : ∃ location keepAlive, handleRequest oneToken page movedTable true true none = _ ∧ _ :=
    (listener_policy hp hrules rfl hr true).1 rfl hf (by decide)
  have hserved : (handleRequest oneToken token movedTable true true none).out = _ ∧ _ :=
    ((listener_policy hp hrules rfl hr' true).2 (List.prefix_append _ _) true).2
      (str "/w") (str "t") (str "key") hf' rfl rfl ⟨by decide, by decide, by decide +kernel⟩ hreads
  rw [hka, hhead] at hserved
  exact ⟨hmoved, hserved.1⟩

end BareServer
