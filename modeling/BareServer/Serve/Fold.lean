/-
Following a canonical fold. `/foo.html` and `/foo/index.html` are both folded onto `/foo/`, whatever
files there are; the document folded is the one answered there unless the other one takes the place.
-/
import BareServer.Serve.Confinement
import BareServer.Serve.Landing

namespace BareServer

open BareServer.Lib

/-! ## What a build keeps -/

section

variable {env : BuildEnv} {p : Policy} {seq total total' seq' : Nat} {root : Node} {cache : SiteCache} {stem : Bytes} {url : Str}
  {e : Cached}

/-- Every body of a file has a variant in its entry. -/
theorem diskEntry_opens {c : Compressors} {mime : Str} {data : Bytes} {bd : Path} {nb : Str × Bytes}
    (hnb : nb ∈ bodies c mime data p) : ∃ v ∈ (diskEntry c url mime data p bd).variants, v.path = snapshotPath bd nb.1 url := by
  simp only [bodies, List.mem_cons, List.mem_append, List.mem_map, Option.mem_toList] at hnb
  simp only [DiskEntry.variants, diskEntry, List.mem_cons, List.mem_append, Option.mem_toList, Option.map_eq_some_iff]
  rcases hnb with rfl | ⟨g, hg, rfl⟩ | ⟨b, hb, rfl⟩
  · exact ⟨_, .inl rfl, rfl⟩
  · exact ⟨_, .inr (.inl ⟨g, hg, rfl⟩), rfl⟩
  · exact ⟨_, .inr (.inr ⟨b, hb, rfl⟩), rfl⟩

/-- Where the snapshot of a build is as it was written, its entries can be opened. -/
theorem servable_built {h : HeaderConfig} {fs : FileSys} {site : Site} (hp : PolicyOf h p)
    (hbuild : buildCache env p seq root total = (some (cache, total'), seq'))
    (hfs : ∀ dir files, cache.buildDir = some ⟨dir, files⟩ → Unmodified fs files) (hcache : site.cache = cache)
    (hpolicy : site.policy = p) : Servable h fs site := by
  subst hcache hpolicy
  refine ⟨hp, fun url e he => ?_⟩
  obtain ⟨data, hentry⟩ := buildCache_entries hbuild he
  refine ⟨env.compressors, data, (entryFor_cases hentry).imp id ?_⟩
  rintro ⟨bd, rfl⟩
  refine ⟨bd, rfl, fun nb hnb => ?_⟩
  obtain ⟨⟨dir, files⟩, hdir, hwhole⟩ := buildCache_whole hbuild url _ he
  obtain ⟨v, hv, hpath⟩ := diskEntry_opens hnb
  obtain ⟨content, hcontent⟩ := Option.isSome_iff_exists.1 (hwhole v hv)
  obtain ⟨reads, hreads, -⟩ := hfs dir files hdir _ _ hcontent
  rw [← hpath, hreads]
  rfl

/-- A key is made of visible names. -/
theorem key_visible (hroot : Slashless root) (hbuild : buildCache env p seq root total = (some (cache, total'), seq'))
    (he : cache.map.lookup url = some e) :
    ∃ names, names ≠ [] ∧ (∀ n ∈ names, IsComponent n ∧ isHidden n = false) ∧ url = urlOf names := by
  obtain ⟨fs, b, hfs, hfold, rfl⟩ := buildCache_some hbuild
  have hent : Entered env p (snapshotDir p seq) ([] ++ fs) b :=
    foldlM_walkFound fs (fun done f b b' _ _ hs hP => entered_step hs hP) fs [] _ _ nofun (fun _ h => h)
      (fun url e he => by simp at he) hfold
  obtain ⟨f, hf, rfl, -⟩ := hent url e he
  exact found_visible hroot hfs f hf

/-- No file is named by its extension only. -/
theorem stem_noSlash (hroot : Slashless root) (hbuild : buildCache env p seq root total = (some (cache, total'), seq'))
    (he : cache.map.lookup (stem ++ str ".html") = some e) : (str "/").isSuffixOf stem = false := by
  obtain ⟨names, hne, hnames, hurl⟩ := key_visible hroot hbuild he
  have htexts : 47 ∉ str ".html" ∧ isHidden (str ".html") = true := by decide
  refine Bool.eq_false_iff.2 fun hsuf => ?_
  obtain ⟨x, rfl⟩ := List.isSuffixOf_iff_suffix.1 hsuf
  rcases List.eq_nil_or_concat names with rfl | ⟨init, n, rfl⟩
  · exact hne rfl
  · -- the name behind the last slash would be hidden
    obtain ⟨hname, hvis⟩ := hnames n (by simp)
    have hsplit : x ++ 47 :: str ".html" = urlOf init ++ 47 :: n := by
      rw [str_slash, List.append_assoc, List.singleton_append] at hurl
      rw [hurl]
      simp [urlOf, str_slash]
    have hlast := congrArg (rsplitOnce · 47) hsplit
    simp only [rsplitOnce_append htexts.1, rsplitOnce_append hname.noSlash, Option.some.injEq, Prod.mk.injEq] at hlast
    rw [← hlast.2, htexts.2] at hvis
    cases hvis

end

section

variable {stem : Bytes}

/-! ## The fold -/

/-- What a page folds onto: its directory, for an index, and a directory of its own name otherwise. -/
theorem canonicalForm_html (hslash : str "/" <+: stem) :
    (∃ dir, stem = dir ++ str "/index" ∧ canonicalForm (stem ++ str ".html") = some (dir ++ str "/")) ∨
      ¬ str "/index" <:+ stem ∧ canonicalForm (stem ++ str ".html") = some (stem ++ str "/") := by
  have htexts : str "/index" = str "/" ++ str "index" ∧ ¬ str "/" <+: str "index" := by decide
  have hhtml : (str ".html").isSuffixOf? (stem ++ str ".html") = some stem :=
    List.isSuffixOf?_eq_some_iff_append_eq.2 rfl
  unfold canonicalForm
  rw [hhtml, Option.map_some]
  cases hs : (str "index").isSuffixOf? stem with
  | none =>
    refine .inr ⟨fun ⟨x, hx⟩ => ?_, rfl⟩
    rw [htexts.1, ← List.append_assoc] at hx
    rw [List.isSuffixOf?_eq_some_iff_append_eq.2 hx] at hs
    cases hs
  | some dir =>
    have hsplit := List.isSuffixOf?_eq_some_iff_append_eq.1 hs
    have hne : dir.isEmpty = false := by
      cases dir with
      | nil =>
        rw [← hsplit] at hslash
        exact absurd hslash htexts.2
      | cons => rfl
    simp only [hne, Bool.false_or]
    cases hd : (str "/").isSuffixOf dir with
    | true =>
      obtain ⟨x, rfl⟩ := List.isSuffixOf_iff_suffix.1 hd
      exact .inl ⟨x, by rw [← hsplit, htexts.1, List.append_assoc], rfl⟩
    | false =>
      refine .inr ⟨fun ⟨x, hx⟩ => ?_, rfl⟩
      rw [← hsplit, htexts.1, ← List.append_assoc] at hx
      have := List.append_cancel_right hx
      rw [← this, Bool.eq_false_iff] at hd
      exact hd (List.isSuffixOf_iff_suffix.2 (List.suffix_append _ _))

/-- A path with a slash at its end is no page. -/
theorem canonicalForm_slash (d : Str) : canonicalForm (d ++ str "/") = none := by
  have hnone : (str ".html").isSuffixOf? (d ++ str "/") = none := by
    refine Option.eq_none_iff_forall_ne_some.2 fun x hx => ?_
    have heq := List.isSuffixOf?_eq_some_iff_append_eq.1 hx
    have hlast := congrArg List.getLast? heq
    rw [List.getLast?_append_of_ne_nil _ (by decide), List.getLast?_append_of_ne_nil _ (by decide)] at hlast
    exact absurd hlast (by decide)
  rw [canonicalForm, hnone]
  rfl

/-- With no index there, a directory path is answered from the page of its name. -/
theorem resolve_page {map : Cache} {e : Cached} (hslash : (str "/").isSuffixOf stem = false) (hne : stem ≠ [])
    (hindex : map.lookup (stem ++ str "/index.html") = none) (he : map.lookup (stem ++ str ".html") = some e) :
    resolve map (stem ++ str "/") = some (.entry e) := by
  have hsuffix : (str "/").isSuffixOf (stem ++ str "/") = true := List.isSuffixOf_iff_suffix.2 (List.suffix_append _ _)
  have hkey : stem ++ str "/" ++ str "index.html" = stem ++ str "/index.html" := by
    rw [List.append_assoc]
    rfl
  have htrim : ((stem ++ str "/").reverse.dropWhile (· == 47)).reverse = stem := by
    rw [str_slash] at hslash ⊢
    rw [List.reverse_append, List.reverse_singleton, List.singleton_append, List.dropWhile_cons_of_pos rfl]
    rcases List.eq_nil_or_concat stem with rfl | ⟨x, b, rfl⟩
    · exact absurd rfl hne
    · have hb : (b == 47) = false := by
        refine Bool.eq_false_iff.2 fun hb => ?_
        rw [beq_iff_eq] at hb
        rw [Bool.eq_false_iff] at hslash
        exact hslash (List.isSuffixOf_iff_suffix.2 ⟨x, by rw [hb, List.concat_eq_append]⟩)
      rw [List.concat_eq_append, List.reverse_append, List.reverse_singleton, List.singleton_append,
        List.dropWhile_cons_of_neg (by rw [hb]; exact Bool.false_ne_true), List.reverse_cons, List.reverse_reverse]
  have hempty : stem.isEmpty = false := by simpa using hne
  rw [resolve, hsuffix, if_pos rfl, hkey, hindex]
  simp only
  rw [htrim, hempty, if_neg Bool.false_ne_true, he]
  rfl

end

/-! ## Following the fold -/

section

variable {fs : FileSys} {vhosts : Vhosts} {sni : Option Str} {head : Bytes} {req : Request} {site : Site}
  {decoded canon stem : Str} {redirectHttps : Bool}

variable (fs) in
/-- What a page's request is answered with. -/
theorem Reached.folded (hr : Reached vhosts sni head req site decoded) (hf : req.fetches = true)
    (hacme : ¬ acmePrefix <+: decoded) (hrules : site.redirects.isEmpty = true) (hfold : site.canonicalUrls = true)
    (hcanon : canonicalForm decoded = some canon) (wantKa redirectHttps : Bool) :
    handleRequest fs head vhosts wantKa redirectHttps sni =
      say (sendRedirect ((builtOrigin site vhosts (normalizeHost req.fields.hostHdr) redirectHttps).1 ++ str "://" ++
          (builtOrigin site vhosts (normalizeHost req.fields.hostHdr) redirectHttps).2 ++ percentEncodePath canon ++
          targetQuery req.target) (req.fields.keepAlive && wantKa) site.policy.securityHeaders)
        (req.fields.keepAlive && wantKa) := by
  have hacme' : acmePrefix.isPrefixOf decoded = false := Bool.eq_false_iff.2 (mt List.isPrefixOf_iff_prefix.1 hacme)
  have hredirect : redirectFor site vhosts (normalizeHost req.fields.hostHdr) req.target (targetPath req.target)
      (targetQuery req.target) decoded redirectHttps =
      some ((builtOrigin site vhosts (normalizeHost req.fields.hostHdr) redirectHttps).1 ++ str "://" ++
        (builtOrigin site vhosts (normalizeHost req.fields.hostHdr) redirectHttps).2 ++ percentEncodePath canon ++
        targetQuery req.target) := by
    unfold redirectFor builtOrigin
    simp only [hacme', Bool.false_eq_true, if_false, resolve_of_isEmpty hrules, hfold, if_true, hcanon]
  rw [hr.reply fs wantKa redirectHttps, hf, if_pos rfl, hredirect]

/-- Where a page folds to, what is answered there is the page, unless an index takes its place. -/
theorem fold_resolves {map : Cache} {e : Cached} (hslash : str "/" <+: stem) (hnoSlash : (str "/").isSuffixOf stem = false)
    (he : map.lookup (stem ++ str ".html") = some e) (hacme : ¬ acmePrefix <+: stem ++ str ".html")
    (halone : str "/index" <:+ stem ∨ map.lookup (stem ++ str "/index.html") = none)
    (hplain : stem ++ str "/" ≠ acmePrefix) :
    ∃ d, canonicalForm (stem ++ str ".html") = some (d ++ str "/") ∧
      (∃ b t, b < 0x80 ∧ stem ++ str ".html" = d ++ b :: t) ∧ str "/" <+: d ++ str "/" ∧
      ¬ acmePrefix <+: d ++ str "/" ∧ resolve map (d ++ str "/") = some (.entry e) := by
  rcases canonicalForm_html hslash with ⟨dir, rfl, hcanon⟩ | ⟨hindex, hcanon⟩
  · have hkey : dir ++ str "/index" ++ str ".html" = dir ++ str "/index.html" := by
      rw [List.append_assoc]
      rfl
    have hsub : dir ++ str "/" <+: dir ++ str "/index" := (List.prefix_append_right_inj dir).2 (by decide)
    rw [hkey] at he
    have hcut : dir ++ str "/index" ++ str ".html" = dir ++ 47 :: str "index.html" := hkey.trans rfl
    refine ⟨dir, hcanon, ⟨47, _, by decide, hcut⟩, ?_, fun hp => hacme ((hp.trans hsub).trans (List.prefix_append _ _)),
      resolve_index he⟩
    by_cases hdir : dir = []
    · rw [hdir, List.nil_append]
    · exact (slash_prefix_append hdir _).2 ((slash_prefix_append hdir _).1 hslash)
  · have hne : stem ≠ [] := by
      rintro rfl
      exact absurd hslash (by decide)
    refine ⟨stem, hcanon, ⟨46, str "html", by decide, rfl⟩, hslash.trans (List.prefix_append _ _), fun hp => ?_,
      resolve_page hnoSlash hne (halone.resolve_left hindex) he⟩
    have hshort : ¬ acmePrefix <+: stem := fun h => hacme (h.trans (List.prefix_append _ _))
    exact hplain ((acme_slash hshort).1 hp)

end

/-- The 301 of a key that ends in `.html` leads to the document under the key: when the key is an index or
no index competes with it, off the listener that only upgrades, and not where the name of the challenge
directory becomes its prefix. Where the names of the tree are distinct texts, that is the file of the key. -/
theorem canonicalFold_lands (t : Tuning) (h : HeaderConfig) (storage : Storage) (diskCache : Path) (env : BuildEnv)
    (root : Node) (hroot : Slashless root) (seq total total' seq' : Nat) (cache : SiteCache)
    (hbuild : buildCache env (.withHeaders t h storage diskCache) seq root total = (some (cache, total'), seq'))
    (fs : FileSys) (hfs : ∀ dir files, cache.buildDir = some ⟨dir, files⟩ → Unmodified fs files) (site : Site)
    (hcache : site.cache = cache) (hpolicy : site.policy = .withHeaders t h storage diskCache)
    (hrules : site.redirects.isEmpty = true) (hfold : site.canonicalUrls = true) {vhosts : Vhosts} {sni : Option Str}
    {head : Bytes} {req : Request} {stem : Str} (hr : Reached vhosts sni head req site (stem ++ str ".html"))
    (hf : req.fetches = true) (hkey : (cache.map.lookup (stem ++ str ".html")).isSome)
    (hacme : ¬ acmePrefix <+: stem ++ str ".html")
    (halone : str "/index" <:+ stem ∨ cache.map.lookup (stem ++ str "/index.html") = none)
    (hplain : stem ++ str "/" ≠ acmePrefix) {redirectHttps : Bool} (hserves : site.serves redirectHttps = true)
    (wantKa : Bool) :
    ∃ keepAlive canon,
      canonicalForm (stem ++ str ".html") = some canon ∧
      handleRequest fs head vhosts wantKa redirectHttps sni =
        say (sendRedirect ((builtOrigin site vhosts (normalizeHost req.fields.hostHdr) redirectHttps).1 ++ str "://" ++
            (builtOrigin site vhosts (normalizeHost req.fields.hostHdr) redirectHttps).2 ++ percentEncodePath canon ++
            targetQuery req.target) keepAlive site.policy.securityHeaders) keepAlive ∧
      (∃ head' req', Follows req (percentEncodePath canon) head' req') ∧
      ((percentEncodePath canon).length < maxPathLen → ∀ head' req' wantKa', Follows req (percentEncodePath canon) head' req' →
        LandsOn fs site (stem ++ str ".html") req' wantKa' (handleRequest fs head' vhosts wantKa' redirectHttps sni) ∧
        (WellNamed root → ∃ data,
          Published env (.withHeaders t h storage diskCache) seq root (stem ++ str ".html") data ∧
          (handleRequest fs head' vhosts wantKa' redirectHttps sni).out =
            (fileResponse env.compressors (mimeFor (stem ++ str ".html")) data (.withHeaders t h storage diskCache) h
              (stem ++ str ".html") req'.fields.acceptEnc [] (req'.fields.keepAlive && wantKa') false
              (chosenBody env.compressors (mimeFor (stem ++ str ".html")) data (.withHeaders t h storage diskCache)
                req'.fields.acceptEnc).1).render)) := by
  have hp : PolicyOf h (.withHeaders t h storage diskCache) := policyOf_withHeaders h t storage diskCache
  have hs : Servable h fs site := servable_built hp hbuild hfs hcache hpolicy
  obtain ⟨e, he⟩ := Option.isSome_iff_exists.1 hkey
  obtain ⟨hbytes, hutf8⟩ := bind_fromUtf8_eq_some.1 hr.decoded
  have hslash : str "/" <+: stem := by
    have hroot := slash_percentDecode hr.slash hr.decoded
    refine (slash_prefix_append ?_ _).1 hroot
    rintro rfl
    exact absurd hroot (by decide)
  obtain ⟨d, hcanon, ⟨b, rest, hb, hcut⟩, hdir, hoff, hres⟩ :=
    fold_resolves hslash (stem_noSlash hroot hbuild he) he hacme halone hplain
  have hchars : Clean (str "/") ∧ isUtf8 (str "/") = true := by decide
  have hclean : Clean (d ++ str "/") :=
    clean_append.2 ⟨(clean_append.1 (hcut ▸ (clean_of_percentDecode hbytes).2)).1, hchars.1⟩
  have htextd : isUtf8 (d ++ str "/") = true := by
    rw [isUtf8_append (isUtf8_cut hb (hcut ▸ hutf8)).1]
    exact hchars.2
  refine ⟨_, d ++ str "/", hcanon, hr.folded fs hf hacme hrules hfold hcanon wantKa redirectHttps,
    exists_follows hr.read fun hnil => ?_, fun hlen head' req' wantKa' hfol => ?_⟩
  · simp [str_slash] at hnil
  · have hr' := hfol.reached hr hdir hclean htextd hlen
    have hanswer := hr'.content fs hfol.fetches.1 hoff hrules (fun _ => canonicalForm_slash d) hserves wantKa'
    have he' : site.cache.map.lookup (stem ++ str ".html") = some e := by rw [hcache]; exact he
    rw [hcache, hres, hfol.inm, hfol.fetches.2] at hanswer
    refine ⟨⟨e, he', hanswer, by rw [hanswer]; exact hs.status he' _ _⟩, fun hw => ?_⟩
    have hh := buildCache_holds hw hbuild
    obtain ⟨data, hpub, hentry⟩ := hh.published he
    refine ⟨data, hpub, ?_⟩
    rw [hanswer, hpolicy]
    exact (serveCached_entryFor fs hp hentry (hpub.readable hh hfs) req'.fields.acceptEnc []
      (req'.fields.keepAlive && wantKa') false).1

/-- A page, and what else there is beside it. -/
def fooTree (others : List (Bytes × Node)) : Node :=
  .dir (some ((str "foo.html", .file ⟨4, none⟩ (some (str "page"))) :: others))

/-- A directory of the page's name, with an index. -/
def fooIndex : Bytes × Node := (str "foo", .dir (some [(str "index.html", .file ⟨5, none⟩ (some (str "index")))]))

/-- A file whose name is not UTF-8. -/
def oddFile : Bytes × Node := ([255], .file ⟨3, none⟩ (some (str "odd")))

def foldSite (cache : SiteCache) : Site := ⟨0, none, cache, true, true, default, sidecarPolicy .memory⟩

def foldTable (cache : SiteCache) : Vhosts where
  sites := (∅ : Sites).insert (str "a.example") (foldSite cache)
  httpsPort := str "443"
  httpPort := str "80"
  errors := .new (str "X: y\r\n")

/-- The page is answered where it folds to, whatever is beside it. -/
theorem canonicalFold_lands_page : ∃ cache head' req',
    (buildCache sidecarEnv (sidecarPolicy .memory) 0 (fooTree [oddFile]) 0).1.map Prod.fst = some cache ∧
    Follows (plainRequest (str "a.example") (str "/foo.html")) (str "/foo/") head' req' ∧
    statusOf (handleRequest oneToken head' (foldTable cache) true false none).out = str "200" := by
  have hbuilt : (buildCache sidecarEnv (sidecarPolicy .memory) 0 (fooTree [oddFile]) 0).1.any (fun built =>
      (built.1.map.lookup (str "/foo.html")).isSome && (built.1.map.lookup (str "/foo/index.html")).isNone &&
        built.1.buildDir.isNone) = true := by decide +kernel
  obtain ⟨⟨cache, total⟩, hbuild, hcheck⟩ := (Option.any_eq_true _ _).1 hbuilt
  simp only [Bool.and_eq_true, Option.isNone_iff_eq_none] at hcheck
  have hroot : Slashless (fooTree [oddFile]) := by
    have hname : str "foo.html" ≠ [] ∧ 47 ∉ str "foo.html" := by decide
    refine .dir ?_ ?_
    · simpa [oddFile] using hname
    · simpa [oddFile] using ⟨Slashless.leaf (by simp), Slashless.leaf (by simp)⟩
  have hget := @plainGet_plainHead (str "a.example") (str "/foo.html") (by decide) (by decide)
  have hr : Reached (foldTable cache) none (plainHead (str "a.example") (str "/foo.html"))
      (plainRequest (str "a.example") (str "/foo.html")) (foldSite cache) (str "/foo" ++ str ".html") := by
    refine ⟨hget.read, (fun _ h => by cases h), ?_, by decide, by decide, by decide⟩
    rw [hget.host]
    exact AList.lookup_insert _
  obtain ⟨keepAlive, canon, hcanon, -, ⟨head', req', hfol⟩, hlands⟩ :=
    canonicalFold_lands { Tuning.default with minCompressBytes := 1 } .default .memory (str "/snap")
      sidecarEnv (fooTree [oddFile]) hroot 0 0 total _ cache (pair_of_fst hbuild) oneToken
      (fun dir files hdir => by rw [hcheck.2] at hdir; cases hdir) (foldSite cache) rfl rfl rfl rfl hr (by decide)
      hcheck.1.1 (by decide) (.inr hcheck.1.2) (by decide) (show (foldSite cache).serves false = true from rfl) true
  have hform : canonicalForm (str "/foo" ++ str ".html") = some (str "/foo/") := by decide
  cases hcanon.symm.trans hform
  have hpath : percentEncodePath (str "/foo/") = str "/foo/" := by decide
  obtain ⟨⟨e, -, -, hanswer⟩, -⟩ := hlands (by decide) head' req' true hfol
  rw [hpath] at hfol
  exact ⟨cache, head', req', by rw [hbuild]; rfl, hfol, hanswer⟩

/-- With an index of the same name, the page's redirect leads to the index. -/
theorem fold_onto_index : ∃ cache,
    (buildCache sidecarEnv (sidecarPolicy .memory) 0 (fooTree [fooIndex]) 0).1.map Prod.fst = some cache ∧
    ∃ e, cache.map.lookup (str "/foo.html") = some e ∧
      handleRequest oneToken (plainHead (str "a.example") (str "/foo.html")) (foldTable cache) true false none =
        say (sendRedirect (str "https://a.example/foo/") true (sidecarPolicy .memory).securityHeaders) true ∧
      str "index" <:+ (handleRequest oneToken (plainHead (str "a.example") (str "/foo/")) (foldTable cache) true false none).out ∧
      str "page" <:+ (serveCached oneToken e [] [] true false (sidecarPolicy .memory)).out := by
  have hbuilt : (buildCache sidecarEnv (sidecarPolicy .memory) 0 (fooTree [fooIndex]) 0).1.any (fun built =>
      (built.1.map.lookup (str "/foo.html")).any fun e =>
        (handleRequest oneToken (plainHead (str "a.example") (str "/foo.html")) (foldTable built.1) true false none ==
          say (sendRedirect (str "https://a.example/foo/") true (sidecarPolicy .memory).securityHeaders) true) &&
        (str "index").isSuffixOf
          (handleRequest oneToken (plainHead (str "a.example") (str "/foo/")) (foldTable built.1) true false none).out &&
        (str "page").isSuffixOf (serveCached oneToken e [] [] true false (sidecarPolicy .memory)).out) = true := by
    decide +kernel
  obtain ⟨⟨cache, total⟩, hbuild, hcheck⟩ := (Option.any_eq_true _ _).1 hbuilt
  obtain ⟨e, he, hcheck⟩ := (Option.any_eq_true _ _).1 hcheck
  simp only [Bool.and_eq_true, beq_iff_eq, List.isSuffixOf_iff_suffix] at hcheck
  exact ⟨cache, by rw [hbuild]; rfl, e, he, hcheck.1.1, hcheck.1.2, hcheck.2⟩

end BareServer
