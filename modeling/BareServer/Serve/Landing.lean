/-
Following a redirect to a directory. The Location of a directory index is the decoded path re-encoded
with a slash behind it; a GET of it lands on the index unless it has grown too long on the way or has
become the ACME prefix itself.
-/
import BareServer.Serve.Upgrade

namespace BareServer

open BareServer.Lib

/-! ## Spellings of a path -/

/-- An encoded path decodes to itself. -/
theorem decode_encoded {d : Str} (hclean : Clean d) (htext : isUtf8 d = true) :
    (percentDecode (percentEncodePath d)).bind fromUtf8 = some d := by
  exact bind_fromUtf8_eq_some.2 ⟨percentDecode_percentEncodePath hclean, htext⟩

theorem percentEncodePath_slash (d : Str) : percentEncodePath (d ++ str "/") = percentEncodePath d ++ str "/" := by
  rw [percentEncodePath, List.flatMap_append]
  rfl

/-- A request target that is an encoded path is all path. -/
theorem targetPath_encoded (d : Str) : targetPath (percentEncodePath d) = percentEncodePath d := by
  refine List.takeWhile_eq_self_iff.2 fun b hb => ?_
  simpa using (isEncoded_spec (mem_percentEncodePath hb)).2.2.1

/-! ## The next request -/

/-- An unconditional GET of a path on the host of another request. -/
structure Follows (req : Request) (path : Str) (head' : Bytes) (req' : Request) : Prop where
  read : readRequest head' = .ok req'
  method : req'.method = str "GET"
  path : targetPath req'.target = path
  host : normalizeHost req'.fields.hostHdr = normalizeHost req.fields.hostHdr
  inm : req'.fields.inm = []

section

variable {h : HeaderConfig} {fs : FileSys} {vhosts : Vhosts} {sni : Option Str} {head head' : Bytes} {req req' : Request}
  {site : Site} {decoded d : Str} {wantKa redirectHttps : Bool}

theorem Follows.fetches {path : Str} (hf : Follows req path head' req') : req'.fetches = true ∧ req'.isHead = false := by
  have hget : (str "GET" == str "HEAD") = false := by decide
  rw [Request.fetches, Request.isHead, hf.method, hget, beq_self_eq_true]
  exact ⟨rfl, rfl⟩

/-- Some client can follow: the encoded path makes a request target. -/
theorem exists_follows (hread : readRequest head = .ok req) (hne : d ≠ []) :
    ∃ head' req', Follows req (percentEncodePath d) head' req' := by
  have henc := fun b (hb : b ∈ percentEncodePath d) => isEncoded_spec (mem_percentEncodePath hb)
  have hpath : percentEncodePath d ≠ [] := by
    cases d with
    | nil => exact absurd rfl hne
    | cons b t =>
      show encodeByte b ++ percentEncodePath t ≠ []
      unfold encodeByte
      split <;> exact List.cons_ne_nil _ _
  obtain ⟨head', req', hread', hmethod, htarget, hhost, -, hinm⟩ :=
    exists_get hread hpath (clean_percentEncodePath d) (fun hm => (henc 32 hm).2.1 rfl)
      (isUtf8_ascii fun b hb => (henc b hb).2.2.2)
  exact ⟨head', req', hread', hmethod, by rw [htarget, targetPath_encoded], by rw [hhost], hinm⟩

/-- The next request gets through to the same site, when its path is not too long. -/
theorem Follows.reached (hf : Follows req (percentEncodePath d) head' req')
    (hr : Reached vhosts sni head req site decoded) (hslash : str "/" <+: d) (hclean : Clean d) (htext : isUtf8 d = true)
    (hlen : (percentEncodePath d).length < maxPathLen) : Reached vhosts sni head' req' site d := by
  refine ⟨hf.read, fun s hs => ?_, ?_, ?_, ?_, ?_⟩
  · rw [hf.host]
    exact hr.sni s hs
  · rw [hf.host]
    exact hr.site
  · rw [hf.path]
    exact slash_percentEncodePath hslash
  · rw [hf.path]
    exact hlen
  · rw [hf.path]
    exact decode_encoded hclean htext

/-- A path of 1024 bytes or more is a 400. -/
theorem Follows.tooLong {path : Str} (hf : Follows req path head' req') (hr : Reached vhosts sni head req site decoded)
    (hlen : maxPathLen ≤ path.length) :
    handleRequest fs head' vhosts wantKa redirectHttps sni = say (sendError site.policy.errors.badRequest false false) false := by
  have hsni : (sni.map fun s => s != normalizeHost req'.fields.hostHdr).getD false = false := by
    rw [hf.host]
    cases hs : sni with
    | none => rfl
    | some s => simp [hr.sni s hs]
  have hget : (req'.method != str "GET") = false := by rw [hf.method]; simp
  have hlong : decide (maxPathLen ≤ (targetPath req'.target).length) = true := by rw [hf.path]; simpa using hlen
  unfold handleRequest
  rw [hf.read]
  simp only
  unfold handleAccepted
  simp only [hsni, Bool.false_eq_true, if_false]
  rw [hf.host, hr.site]
  simp only
  unfold handleSite
  simp only [hget, hlong, Bool.false_and, Bool.or_true, Bool.false_eq_true, if_false, if_true, hf.fetches.2]

/-- Does this listener serve the site's content? A site that forces TLS is upgraded on the plain one. -/
def Site.serves (site : Site) (redirectHttps : Bool) : Bool := !(redirectHttps && site.forceSsl)

theorem resolve_of_isEmpty {r : Redirects} (hrules : r.isEmpty = true) (path : Str) : r.resolve path = none := by
  simp only [Redirects.isEmpty, Bool.and_eq_true, List.isEmpty_iff, Option.isNone_iff_eq_none] at hrules
  obtain ⟨⟨hexact, hprefixes⟩, hall⟩ := hrules
  unfold Redirects.resolve AList.lookup
  rw [hexact, hprefixes, hall]
  rfl

variable (fs) in
/-- Off the challenge prefix, a path that nothing redirects is looked up in the cache. -/
theorem Reached.content (hr : Reached vhosts sni head req site decoded) (hf : req.fetches = true)
    (hacme : ¬ acmePrefix <+: decoded) (hrules : site.redirects.isEmpty = true)
    (hcanon : site.canonicalUrls = true → canonicalForm decoded = none) (hserves : site.serves redirectHttps = true)
    (wantKa : Bool) :
    handleRequest fs head vhosts wantKa redirectHttps sni =
      match resolve site.cache.map decoded with
      | some (.entry e) =>
        serveCached fs e req.fields.acceptEnc req.fields.inm (req.fields.keepAlive && wantKa) req.isHead site.policy
      | some .dirIndex =>
        say (sendRedirect (dirLocation site vhosts (normalizeHost req.fields.hostHdr) (targetQuery req.target) decoded
          redirectHttps) (req.fields.keepAlive && wantKa) site.policy.securityHeaders) (req.fields.keepAlive && wantKa)
      | none =>
        say (sendError site.policy.errors.notFound (req.fields.keepAlive && wantKa) req.isHead)
          (req.fields.keepAlive && wantKa) := by
  have hacme' : acmePrefix.isPrefixOf decoded = false := Bool.eq_false_iff.2 (mt List.isPrefixOf_iff_prefix.1 hacme)
  have hfold : (if site.canonicalUrls then canonicalForm decoded else none) = none := by
    split
    · rename_i hc
      exact hcanon hc
    · rfl
  have hup : (redirectHttps && site.forceSsl) = false := by rwa [Site.serves, Bool.not_eq_true'] at hserves
  rw [hr.reply fs wantKa redirectHttps, hf, if_pos rfl]
  unfold redirectFor
  simp only [hacme', Bool.false_eq_true, if_false, resolve_of_isEmpty hrules, hfold, hup]
  have hcontent : ¬ acmePrefix.isPrefixOf decoded = true := mt List.isPrefixOf_iff_prefix.1 hacme
  unfold serveContent
  cases resolve site.cache.map decoded with
  | none => exact if_neg hcontent
  | some r => cases r <;> exact if_neg hcontent

/-! ## Entries -/

/-- Every entry of the site's cache is some file's, and the snapshot it is read from, if any, opens. -/
structure Servable (h : HeaderConfig) (fs : FileSys) (site : Site) : Prop where
  policy : PolicyOf h site.policy
  entries : ∀ url e, site.cache.map.lookup url = some e → ∃ c data,
    e = .mem (makeCached c url (mimeFor url) data site.policy) ∨
      ∃ bd, e = .disk (diskEntry c url (mimeFor url) data site.policy bd) ∧
        ∀ nb ∈ bodies c (mimeFor url) data site.policy, (fs.snapshot (snapshotPath bd nb.1 url)).isSome

theorem statusOf_fileResponse (c : Compressors) (mime : Str) (data : Bytes) (p : Policy) (h : HeaderConfig)
    (url acceptEnc : Str) (keepAlive isHead : Bool) (content : Bytes) :
    statusOf (fileResponse c mime data p h url acceptEnc [] keepAlive isHead content).render = str "200" :=
  statusOf_ok rfl

/-- An entry answers an unconditional GET with a 200. -/
theorem Servable.status (hs : Servable h fs site) {url : Str} {e : Cached} (he : site.cache.map.lookup url = some e)
    (acceptEnc : Str) (keepAlive : Bool) :
    statusOf (serveCached fs e acceptEnc [] keepAlive false site.policy).out = str "200" := by
  obtain ⟨c, data, rfl | ⟨bd, rfl, hopen⟩⟩ := hs.entries url e he
  · rw [serveCached, serveMem_makeCached hs.policy rfl]
    exact statusOf_fileResponse ..
  · obtain ⟨ns, hmem, -, hserve⟩ := serveDisk_diskEntry (c := c) hs.policy (rfl : mimeFor url = _) fs data bd acceptEnc []
      keepAlive false
    obtain ⟨reads, hreads⟩ := Option.isSome_iff_exists.1 (hopen _ hmem)
    rw [serveCached, hserve, hreads]
    exact statusOf_fileResponse ..

/-! ## The directory redirect -/

/-- The entry a directory redirect is for answers, with a 200. -/
def LandsOn (fs : FileSys) (site : Site) (url : Str) (req' : Request) (wantKa : Bool) (reply : Reply) : Prop :=
  ∃ e, site.cache.map.lookup url = some e ∧
    reply = serveCached fs e req'.fields.acceptEnc [] (req'.fields.keepAlive && wantKa) false site.policy ∧
    statusOf reply.out = str "200"

/-- A directory is one of a key's, and no key itself. -/
theorem resolve_dirIndex {cache : Cache} (hd : resolve cache decoded = some .dirIndex) :
    (str "/").isSuffixOf decoded = false ∧ ∃ e, cache.lookup (decoded ++ str "/index.html") = some e := by
  unfold resolve at hd
  split at hd
  · -- a path with a slash at its end resolves to an entry or to nothing
    split at hd
    · cases hd
    · simp only at hd
      split at hd
      · cases hd
      · obtain ⟨e, -, he⟩ := Option.map_eq_some_iff.1 hd
        cases he
  · rename_i hslash
    refine ⟨Bool.eq_false_iff.2 hslash, ?_⟩
    split at hd
    · cases hd
    · split at hd
      · cases hd
      · obtain ⟨e, he, -⟩ := Option.map_eq_some_iff.1 hd
        exact ⟨e, he⟩

/-- An index is answered under its directory. -/
theorem resolve_index {cache : Cache} {e : Cached} {dir : Str} (he : cache.lookup (dir ++ str "/index.html") = some e) :
    resolve cache (dir ++ str "/") = some (.entry e) := by
  have hsuffix : (str "/").isSuffixOf (dir ++ str "/") = true := List.isSuffixOf_iff_suffix.2 (List.suffix_append _ _)
  have hkey : dir ++ str "/" ++ str "index.html" = dir ++ str "/index.html" := by
    rw [List.append_assoc]
    rfl
  rw [resolve, hsuffix, if_pos rfl, hkey, he]

/-- A path that becomes a challenge path when a slash is added is the prefix without its slash. -/
theorem acme_slash (hacme : ¬ acmePrefix <+: decoded) : acmePrefix <+: decoded ++ str "/" ↔ decoded ++ str "/" = acmePrefix := by
  constructor
  · intro hp
    rw [str_slash, List.prefix_concat_iff] at hp
    rcases hp with heq | hp
    · rw [str_slash, heq]
    · exact absurd hp hacme
  · intro heq
    rw [heq]

/-- Below the challenge prefix there is no token without a name. -/
theorem Reached.noToken (hp : PolicyOf h site.policy) (hr : Reached vhosts sni head req site acmePrefix)
    (hf : req.fetches = true) : statusOf (handleRequest fs head vhosts wantKa redirectHttps sni).out ≠ str "200" := by
  rw [hr.reply fs wantKa redirectHttps, hf, if_pos rfl, redirectFor_acme List.prefix_rfl]
  have hprefix : acmePrefix.isPrefixOf acmePrefix = true := List.isPrefixOf_iff_prefix.2 List.prefix_rfl
  simp only [serveContent, hprefix, if_true]
  have hpage := (statusOf_errorPages h (req.fields.keepAlive && wantKa) req.isHead).2.1
  cases site.root with
  | none =>
    rw [hp.errors]
    exact hpage
  | some root =>
    have hcases := serveAcmeToken_cases fs root [] (req.fields.keepAlive && wantKa) req.isHead site.policy
    rw [List.append_nil] at hcases
    rcases hcases with ⟨-, hreply⟩ | ⟨htok, -⟩
    · simp only [hreply, hp.errors]
      exact hpage
    · exact absurd rfl htok.nonempty

/-- A GET for the Location of a directory redirect is answered with the directory's index exactly when the
path it has become is shorter than the limit and is not the challenge prefix. -/
theorem dirRedirect_lands_iff (hs : Servable h fs site) (hr : Reached vhosts sni head req site decoded)
    (hf : req.fetches = true) (hacme : ¬ acmePrefix <+: decoded) (hcanon : site.canonicalUrls = false)
    (hrules : site.redirects.isEmpty = true) (hserves : site.serves redirectHttps = true)
    (hdir : resolve site.cache.map decoded = some .dirIndex) (wantKa : Bool) :
    ∃ keepAlive path,
      handleRequest fs head vhosts wantKa redirectHttps sni =
        say (sendRedirect ((builtOrigin site vhosts (normalizeHost req.fields.hostHdr) redirectHttps).1 ++ str "://" ++
            (builtOrigin site vhosts (normalizeHost req.fields.hostHdr) redirectHttps).2 ++ path ++
            targetQuery req.target) keepAlive site.policy.securityHeaders) keepAlive ∧
      (∃ head' req', Follows req path head' req') ∧
      ∀ head' req' wantKa', Follows req path head' req' →
        (LandsOn fs site (decoded ++ str "/index.html") req' wantKa'
            (handleRequest fs head' vhosts wantKa' redirectHttps sni) ↔
          (percentEncodePath decoded).length + 1 < maxPathLen ∧ decoded ++ str "/" ≠ acmePrefix) := by
  have hnofold : ∀ d, site.canonicalUrls = true → canonicalForm d = none := fun d hc => by rw [hcanon] at hc; cases hc
  obtain ⟨-, e, he⟩ := resolve_dirIndex hdir
  obtain ⟨hbytes, hutf8⟩ := bind_fromUtf8_eq_some.1 hr.decoded
  have hslash : isUtf8 (str "/") = true ∧ Clean (str "/") ∧ (str "/").length = 1 := by decide
  have hclean : Clean (decoded ++ str "/") := clean_append.2 ⟨(clean_of_percentDecode hbytes).2, hslash.2.1⟩
  have hutf8' : isUtf8 (decoded ++ str "/") = true := by rw [isUtf8_append hutf8]; exact hslash.1
  have hroot : str "/" <+: decoded ++ str "/" := (slash_percentDecode hr.slash hr.decoded).trans (List.prefix_append _ _)
  have hindex := resolve_index he
  have hreply := hr.content fs hf hacme hrules (hnofold decoded) hserves wantKa
  rw [hdir] at hreply
  refine ⟨req.fields.keepAlive && wantKa, percentEncodePath decoded ++ str "/", hreply.trans ?_, ?_, fun head' req' wantKa' hfol => ?_⟩
  · unfold dirLocation builtOrigin
    simp only [List.append_assoc]
  · rw [← percentEncodePath_slash]
    exact exists_follows hr.read fun hnil => by simp [str_slash] at hnil
  rw [← percentEncodePath_slash] at hfol
  have hlength : (percentEncodePath (decoded ++ str "/")).length = (percentEncodePath decoded).length + 1 := by
    rw [percentEncodePath_slash, List.length_append, hslash.2.2]
  by_cases hlen : (percentEncodePath decoded).length + 1 < maxPathLen
  swap
  · -- too long: a 400
    refine ⟨fun ⟨_, _, _, hstatus⟩ => ?_, fun h => absurd h.1 hlen⟩
    rw [hfol.tooLong hr (by omega), hs.policy.errors] at hstatus
    exact absurd hstatus (statusOf_errorPages h false false).1
  have hr' := hfol.reached hr hroot hclean hutf8' (by omega)
  by_cases hchallenge : decoded ++ str "/" = acmePrefix
  · refine ⟨fun ⟨_, _, _, hstatus⟩ => ?_, fun h => absurd hchallenge h.2⟩
    rw [hchallenge] at hr'
    exact absurd hstatus (hr'.noToken hs.policy hfol.fetches.1)
  refine ⟨fun _ => ⟨hlen, hchallenge⟩, fun _ => ⟨e, he, ?_, ?_⟩⟩
  all_goals
    have hacme' : ¬ acmePrefix <+: decoded ++ str "/" := fun hp => hchallenge ((acme_slash hacme).1 hp)
    have hanswer := hr'.content fs hfol.fetches.1 hacme' hrules (hnofold _) hserves wantKa'
    rw [hindex, hfol.inm, hfol.fetches.2] at hanswer
    rw [hanswer]
  exact hs.status he _ _

end

/-! ## Sites of one file -/

def memoryPolicy : Policy := .withHeaders .default .default .memory (str "/cache")

/-- A site of one file, held in memory under a key. -/
def fileSite (c : Compressors) (key : Str) (data : Bytes) : Site where
  id := 0
  root := none
  cache := { SiteCache.empty with map := (∅ : Cache).insert key (.mem (makeCached c key (mimeFor key) data memoryPolicy)) }
  forceSsl := true
  canonicalUrls := false
  redirects := default
  policy := memoryPolicy

/-- A table of one site. -/
def fileTable (host : Str) (site : Site) : Vhosts where
  sites := (∅ : Sites).insert host site
  httpsPort := str "443"
  httpPort := str "80"
  errors := .new (str "X: y\r\n")

theorem lookup_fileSite (c : Compressors) (key : Str) (data : Bytes) (url : Str) :
    (fileSite c key data).cache.map.lookup url =
      if url = key then some (.mem (makeCached c key (mimeFor key) data memoryPolicy)) else none := by
  show AList.lookup url (AList.insert _ _ ∅) = _
  rw [Map.lookup_insert']
  rfl

theorem lookup_fileTable (host : Str) (site : Site) (host' : Str) :
    (fileTable host site).sites.lookup host' = if host' = host then some site else none := by
  show AList.lookup host' (AList.insert _ _ ∅) = _
  rw [Map.lookup_insert']
  rfl

theorem servable_fileSite (c : Compressors) (key : Str) (data : Bytes) (fs : FileSys) :
    Servable .default fs (fileSite c key data) := by
  refine ⟨policyOf_withHeaders _ _ _ _, fun url e he => ?_⟩
  rw [lookup_fileSite] at he
  split at he
  · rename_i hurl
    cases he
    exact ⟨c, data, .inl (by rw [hurl]; rfl)⟩
  · cases he

/-- A site with the index of one directory. -/
def indexSite (dir : Str) : Site := fileSite ⟨fun d _ => d, fun d _ => d⟩ (dir ++ str "/index.html") (str "hello")

def indexTable (dir : Str) : Vhosts := fileTable (str "a.example") (indexSite dir)

/-- The directory itself resolves to a redirect. -/
theorem resolve_indexSite {dir : Str} (hslash : (str "/").isSuffixOf dir = false) :
    resolve (indexSite dir).cache.map dir = some .dirIndex := by
  have hne : ∀ t : Str, t.length ≠ 11 → dir ++ t ≠ dir ++ str "/index.html" := fun t ht he =>
    ht (by rw [List.append_cancel_left he]; decide)
  have hself := hne [] (by decide)
  rw [List.append_nil] at hself
  have hhtml := hne (str ".html") (by decide)
  rw [indexSite, resolve, hslash, if_neg Bool.false_ne_true, lookup_fileSite, if_neg hself, lookup_fileSite, if_neg hhtml,
    lookup_fileSite, if_pos rfl]
  rfl

/-- A plain GET of a path gets through to the site. -/
theorem reached_indexSite {dir : Str} (hslash : str "/" <+: dir) (hclean : Clean dir) (htext : isUtf8 dir = true)
    (hlen : (percentEncodePath dir).length < maxPathLen) :
    Reached (indexTable dir) none (plainHead (str "a.example") dir) (plainRequest (str "a.example") dir) (indexSite dir)
      dir := by
  have hne : dir ≠ [] := by
    rintro rfl
    exact absurd hslash (by decide)
  have hget := @plainGet_plainHead (str "a.example") dir (by decide) hne
  refine ⟨hget.read, (fun _ h => by cases h), ?_, ?_, ?_, ?_⟩
  · rw [hget.host]
    exact AList.lookup_insert _
  · rw [hget.target, targetPath_encoded]
    exact slash_percentEncodePath hslash
  · rw [hget.target, targetPath_encoded]
    exact hlen
  · rw [hget.target, targetPath_encoded]
    exact decode_encoded hclean htext

/-- The redirect of a short path lands. -/
theorem dirRedirect_lands_blog : ∃ head' req',
    LandsOn oneToken (indexSite (str "/blog")) (str "/blog/index.html") req' true
      (handleRequest oneToken head' (indexTable (str "/blog")) true false none) := by
  have hr := @reached_indexSite (str "/blog") (by decide) (by decide) (by decide) (by decide)
  obtain ⟨keepAlive, path, -, ⟨head', req', hfol⟩, hiff⟩ :=
    dirRedirect_lands_iff (servable_fileSite _ _ _ oneToken) hr (by decide) (by decide) rfl rfl
      (show (indexSite (str "/blog")).serves false = true from rfl) (resolve_indexSite (by decide)) true
  exact ⟨head', req', (hiff head' req' true hfol).2 ⟨by decide, by decide⟩⟩

/-- A directory with a long plain name. -/
def longDir (n : Nat) : Str := 47 :: List.replicate (n + 1) 97

theorem longDir_spec (n : Nat) : percentEncodePath (longDir n) = longDir n ∧ (longDir n).length = n + 2 ∧
    (∀ b ∈ longDir n, b = 47 ∨ b = 97) ∧ (str "/").isSuffixOf (longDir n) = false := by
  have hencode : ∀ n, percentEncodePath (List.replicate n 97) = List.replicate n 97 := by
    intro n
    induction n with
    | zero => rfl
    | succ n ih =>
      rw [List.replicate_succ, percentEncodePath, List.flatMap_cons]
      exact congrArg (97 :: ·) ih
  refine ⟨congrArg (47 :: ·) (hencode (n + 1)), by rw [longDir, List.length_cons, List.length_replicate], ?_, ?_⟩
  · intro b hb
    rcases List.mem_cons.1 hb with rfl | hb
    · exact .inl rfl
    · exact .inr (List.eq_of_mem_replicate hb)
  · refine Bool.eq_false_iff.2 fun hsuf => ?_
    obtain ⟨t, ht⟩ := List.isSuffixOf_iff_suffix.1 hsuf
    have hlong : longDir n = (47 :: List.replicate n 97) ++ [97] := by
      rw [longDir, List.replicate_succ']
      rfl
    have hlast := congrArg List.getLast? ht
    rw [str_slash, hlong, List.getLast?_concat, List.getLast?_concat] at hlast
    exact absurd hlast (by decide)

/-- A path of 1023 bytes is accepted; the slash makes its Location one too long. -/
theorem dirRedirect_too_long :
    Servable .default oneToken (indexSite (longDir 1021)) ∧
    Reached (indexTable (longDir 1021)) none (plainHead (str "a.example") (longDir 1021))
      (plainRequest (str "a.example") (longDir 1021)) (indexSite (longDir 1021)) (longDir 1021) ∧
    resolve (indexSite (longDir 1021)).cache.map (longDir 1021) = some .dirIndex ∧
    (∃ head' req', Follows (plainRequest (str "a.example") (longDir 1021)) (percentEncodePath (longDir 1021) ++ str "/")
      head' req') ∧
    ∀ head' req', Follows (plainRequest (str "a.example") (longDir 1021)) (percentEncodePath (longDir 1021) ++ str "/")
      head' req' → statusOf (handleRequest oneToken head' (indexTable (longDir 1021)) true false none).out = str "400" := by
  obtain ⟨hencode, hlength, hbyte, hslash⟩ := longDir_spec 1021
  generalize hdir : longDir 1021 = dir at *
  have hclean : Clean dir := fun b hb => by rcases hbyte b hb with rfl | rfl <;> decide
  have htext : isUtf8 dir = true := isUtf8_ascii fun b hb => by rcases hbyte b hb with rfl | rfl <;> decide
  have hroot : str "/" <+: dir := ⟨List.replicate 1022 97, hdir⟩
  have hr := reached_indexSite hroot hclean htext (by rw [hencode, hlength]; decide)
  refine ⟨servable_fileSite _ _ _ _, hr, resolve_indexSite hslash, ?_, fun head' req' hfol => ?_⟩
  · rw [← percentEncodePath_slash]
    exact exists_follows hr.read fun hnil => by
      have := congrArg List.length hnil
      rw [List.length_append, hlength] at this
      cases this
  · have hlong : maxPathLen ≤ (percentEncodePath dir ++ str "/").length := by
      rw [List.length_append, hencode, hlength]
      decide
    rw [hfol.tooLong hr hlong]
    show statusOf (sendError (ErrorPages.new _).badRequest false false) = _
    decide +kernel

end BareServer
