/-
A published file is what its URL answers with, and every answer of the cache is a published file's:
the keys of a cache are the URLs of its tree's files, a plain GET of one gets that file's bytes, and
a 200 is a variant of the first candidate of its path.
-/
import Mathlib.Data.List.TakeWhile
import BareServer.Serve.Lines
import BareServer.Serve.Storage

namespace BareServer

open BareServer.Lib

/-! ## A plain request -/

/-- A GET of one path on one host, without conditions and without codings. -/
structure PlainGet (host u : Str) (head : Bytes) (req : Request) : Prop where
  read : readRequest head = .ok req
  method : req.method = str "GET"
  target : req.target = percentEncodePath u
  host : normalizeHost req.fields.hostHdr = host
  acceptEnc : req.fields.acceptEnc = []
  inm : req.fields.inm = []

/-- Lower-case letters, digits, hyphens and dots. -/
def isHostKey (host : Str) : Bool := host.all fun b => isDigit b || (97 ≤ b && b ≤ 122) || b == 45 || b == 46

theorem isHostKey_byte {b : UInt8} (h : (isDigit b || (97 ≤ b && b ≤ 122) || b == 45 || b == 46) = true) :
    isGraph b = true ∧ b ≠ 58 ∧ b ≠ 91 ∧ toLower b = b := by
  have hcases : (48 ≤ b.toNat ∧ b.toNat ≤ 57) ∨ (97 ≤ b.toNat ∧ b.toNat ≤ 122) ∨ b.toNat = 45 ∨ b.toNat = 46 := by
    simp only [isDigit, Bool.or_eq_true, Bool.and_eq_true, decide_eq_true_eq, beq_iff_eq, UInt8.le_iff_toNat_le,
      ← UInt8.toNat_inj, UInt8.reduceToNat] at h
    omega
  refine ⟨?_, ?_, ?_, ?_⟩
  · simp only [isGraph, Bool.and_eq_true, decide_eq_true_eq, UInt8.lt_iff_toNat_lt, UInt8.reduceToNat]
    omega
  · rintro rfl; simp at hcases
  · rintro rfl; simp at hcases
  · unfold toLower
    rw [if_neg]
    simp only [Bool.and_eq_true, decide_eq_true_eq, UInt8.le_iff_toNat_le, UInt8.reduceToNat]
    omega

/-- A host key is its own normal form. -/
theorem normalizeHost_hostKey {host : Str} (h : isHostKey host = true) : normalizeHost host = host := by
  have hall := fun b hb => isHostKey_byte (List.all_eq_true.1 h b hb)
  unfold normalizeHost
  simp only
  rw [trim_graph fun b hb => (hall b hb).1]
  have hlower : lower host = host := by
    unfold lower
    exact (List.map_congr_left fun b hb => (hall b hb).2.2.2).trans (List.map_id _)
  split
  · rename_i rest
    exact absurd rfl (hall 91 List.mem_cons_self).2.2.1
  · rw [List.splitOn_eq_singleton fun hm => (hall 58 hm).2.1 rfl]
    exact hlower

/-- The head a client sends for a path. -/
def plainHead (host u : Str) : Bytes :=
  str "GET " ++ percentEncodePath u ++ str " HTTP/1.1\r\nHost: " ++ host ++ str "\r\n\r\n"

/-- What is read of it. -/
def plainRequest (host u : Str) : Request where
  method := str "GET"
  target := percentEncodePath u
  version := str "HTTP/1.1"
  fields := ⟨true, [], host, [], true, false⟩

theorem fieldLine_host {host : Str} (h : isHostKey host = true) (f : Fields) (hseen : f.hostSeen = false) :
    fieldLine f ([72, 111, 115, 116, 58, 32] ++ host) = some { f with hostSeen := true, hostHdr := host } := by
  have htrim : trim (32 :: host) = host := by
    rw [trim_space, trim_graph fun b hb => (isHostKey_byte (List.all_eq_true.1 h b hb)).1]
  have hfield : fieldOf ([72, 111, 115, 116, 58, 32] ++ host) = some ([72, 111, 115, 116], trim (32 :: host)) := rfl
  have hname : eqIgnoreCase [72, 111, 115, 116] (str "host") = true := by decide
  rw [fieldLine, hfield, htrim]
  simp only [hname, hseen, if_true, Bool.false_eq_true, if_false]

/-- The lines of the head. -/
theorem plainHead_eq (host u : Str) :
    plainHead host u = joinCrlf [getLine (percentEncodePath u), [72, 111, 115, 116, 58, 32] ++ host, [], []] := by
  have htexts : str " HTTP/1.1\r\nHost: " = str " HTTP/1.1" ++ [13, 10, 72, 111, 115, 116, 58, 32] ∧
      str "\r\n\r\n" = [13, 10, 13, 10] := by decide
  rw [plainHead, htexts.1, htexts.2, getLine]
  simp [joinCrlf]

/-- The head is read as the request it is meant to be. -/
theorem plainGet_plainHead {host u : Str} (hhost : isHostKey host = true) (hu : u ≠ []) :
    PlainGet host u (plainHead host u) (plainRequest host u) := by
  have henc := fun b (hb : b ∈ percentEncodePath u) => isEncoded_spec (mem_percentEncodePath hb)
  have hgraph := fun b hb => (isHostKey_byte (List.all_eq_true.1 hhost b hb)).1
  have hne : percentEncodePath u ≠ [] := by
    cases u with
    | nil => exact absurd rfl hu
    | cons b t =>
      show encodeByte b ++ percentEncodePath t ≠ []
      unfold encodeByte
      split <;> exact List.cons_ne_nil _ _
  have hhostClean : Clean host := fun b hb => by
    have := hgraph b hb
    simp only [isGraph, Bool.and_eq_true, decide_eq_true_eq] at this
    simp only [isControl, Bool.or_eq_false_iff, decide_eq_false_iff_not, beq_eq_false_iff_ne, ne_eq, not_lt,
      UInt8.lt_iff_toNat_lt, ← UInt8.toNat_inj, UInt8.reduceToNat] at this ⊢
    omega
  have hhostLine : TextLine ([72, 111, 115, 116, 58, 32] ++ host) := by
    have hname : Clean [72, 111, 115, 116, 58, 32] ∧ isUtf8 [72, 111, 115, 116, 58, 32] = true := by decide
    refine textLine_of_clean (clean_append.2 ⟨hname.1, hhostClean⟩) ?_
    rw [isUtf8_append hname.2]
    exact isUtf8_ascii fun b hb => isGraph_lt (hgraph b hb)
  have hlines : ∀ l ∈ [[72, 111, 115, 116, 58, 32] ++ host, [], []], TextLine l := by
    rintro l (_ | ⟨_, hl⟩)
    · exact hhostLine
    · exact textLine_blank l hl
  have hfields : fieldLines ⟨true, [], [], [], false, false⟩ [[72, 111, 115, 116, 58, 32] ++ host, [], []] =
      some ⟨true, [], host, [], true, false⟩ := by
    rw [fieldLines, fieldLine_host hhost _ rfl]
    rfl
  refine ⟨?_, rfl, rfl, normalizeHost_hostKey hhost, rfl, rfl⟩
  rw [plainHead_eq]
  exact readRequest_getLine hne (clean_percentEncodePath u) (fun hm => (henc 32 hm).2.1 rfl)
    (isUtf8_ascii fun b hb => (henc b hb).2.2.2) hlines hfields rfl

/-! ## Statuses -/

/-- The status digits of what was written. -/
def statusOf (out : Bytes) : Str := (out.drop 9).take 3

theorem statusOf_line (rest : Bytes) : statusOf (str "HTTP/1.1 " ++ rest) = rest.take 3 := by
  have hlen : (str "HTTP/1.1 ").length = 9 := by decide
  rw [statusOf, ← hlen, List.drop_left]

theorem statusOf_render (r : Response) (h : (dec r.code).length = 3) : statusOf r.render = dec r.code := by
  rw [Response.render, Response.head, Response.lines]
  simp only [List.append_assoc]
  rw [statusOf_line, ← h, List.take_left]

theorem statusOf_ok {r : Response} (h : r.code = 200) : statusOf r.render = str "200" := by
  have htext : dec 200 = str "200" ∧ (dec 200).length = 3 := by decide
  rw [statusOf_render r (h ▸ htext.2), h]
  exact htext.1

/-- The three-digit statuses other than 200. -/
theorem statusTexts_ne : ∀ code ∈ [301, 304, 400, 404, 405, 500], (dec code).length = 3 ∧ dec code ≠ str "200" := by
  decide

theorem statusOf_ne {r : Response} (h : r.code ∈ [301, 304, 400, 404, 405, 500]) : statusOf r.render ≠ str "200" := by
  obtain ⟨hlen, hne⟩ := statusTexts_ne r.code h
  rw [statusOf_render r hlen]
  exact hne

theorem statusOf_sendError (h : HeaderConfig) {code : Nat} {reason : Str} (hcode : code ∈ [301, 304, 400, 404, 405, 500])
    (keepAlive isHead : Bool) : statusOf (sendError (buildStatus code reason h.render) keepAlive isHead) ≠ str "200" := by
  rw [sendError_render]
  exact statusOf_ne hcode

/-- No page of an error set is a 200. -/
theorem statusOf_errorPages (h : HeaderConfig) (keepAlive isHead : Bool) :
    statusOf (sendError (ErrorPages.new h.render).badRequest keepAlive isHead) ≠ str "200" ∧
    statusOf (sendError (ErrorPages.new h.render).notFound keepAlive isHead) ≠ str "200" ∧
    statusOf (sendError (ErrorPages.new h.render).methodNotAllowed keepAlive isHead) ≠ str "200" := by
  refine ⟨?_, ?_, ?_⟩ <;> exact statusOf_sendError h (by decide) _ _

theorem statusOf_sendRedirect (h : HeaderConfig) (location : Str) (keepAlive : Bool) :
    statusOf (sendRedirect location keepAlive h.render) ≠ str "200" := by
  rw [sendRedirect_render]
  refine statusOf_ne ?_
  show 301 ∈ _
  decide

/-! ## Answers of the cache -/

/-- The bodies of a file with their codings. -/
def variantsOf (c : Compressors) (mime : Str) (data : Bytes) (p : Policy) : List (Bytes × Option Str) :=
  (data, none) :: ((compressVariants c mime data p).1.toList.map (·, some (str "gzip")) ++
    (compressVariants c mime data p).2.toList.map (·, some (str "br")))

theorem chosenBody_mem (c : Compressors) (mime : Str) (data : Bytes) (p : Policy) (acceptEnc : Str) :
    chosenBody c mime data p acceptEnc ∈ variantsOf c mime data p := by
  unfold chosenBody variantsOf
  rcases pickVariant_cases acceptEnc ((compressVariants c mime data p).2.map (·, some (str "br")))
    ((compressVariants c mime data p).1.map (·, some (str "gzip"))) (data, none) with e | e | e
  · rw [e]
    exact List.mem_cons_self
  · obtain ⟨body, hbody, e⟩ := Option.map_eq_some_iff.1 e
    rw [← e, hbody]
    simp
  · obtain ⟨body, hbody, e⟩ := Option.map_eq_some_iff.1 e
    rw [← e, hbody]
    simp

/-- Without an `Accept-Encoding` field the body is the file's own. -/
theorem chosenBody_identity (c : Compressors) (mime : Str) (data : Bytes) (p : Policy) :
    chosenBody c mime data p [] = (data, none) := by
  have hno : acceptsEncoding [] (str "br") = false ∧ acceptsEncoding [] (str "gzip") = false := by decide
  unfold chosenBody pickVariant
  rw [hno.1, hno.2]
  obtain ⟨gz, br⟩ := compressVariants c mime data p
  cases gz <;> cases br <;> rfl

/-- An unconditional GET without codings gets the file. -/
theorem fileResponse_identity (c : Compressors) (mime : Str) (data : Bytes) (p : Policy) (h : HeaderConfig) (url : Str)
    (keepAlive : Bool) :
    fileResponse c mime data p h url [] [] keepAlive false (chosenBody c mime data p []).1 =
      okResponse mime data.length (etagFor data) none (varies c mime data p) (p.cacheControlFor url) keepAlive h data := by
  unfold fileResponse variantResponse
  rw [chosenBody_identity]
  rfl

/-- In disk mode, was every body of a file written? -/
def Written (env : BuildEnv) (p : Policy) (seq : Nat) (url : Str) (data : Bytes) : Prop :=
  ∀ dir, snapshotDir p seq = some dir → ∀ nb ∈ bodies env.compressors (mimeFor url) data p,
    env.writes (snapshotPath dir nb.1 url) = true

theorem entryFor_isSome {env : BuildEnv} {p : Policy} {seq : Nat} {url : Str} {data : Bytes} :
    (entryFor env p (snapshotDir p seq) url data).isSome ↔ Written env p seq url data := by
  unfold entryFor Written
  cases snapshotDir p seq with
  | none => simp
  | some dir =>
    simp only [Option.some.injEq, forall_eq']
    rw [← List.all_eq_true, ← canSnapshot]
    cases canSnapshot env (mimeFor url) data p dir url <;> simp

/-- The answer of an entry whose snapshot, when it has one, reads back. -/
theorem serveCached_entryFor (fs : FileSys) {env : BuildEnv} {p : Policy} {h : HeaderConfig} {buildDir : Option Path}
    {url : Str} {data : Bytes} {e : Cached} (hp : PolicyOf h p) (he : entryFor env p buildDir url data = some e)
    (hfs : ∀ dir, buildDir = some dir → ∀ nb ∈ bodies env.compressors (mimeFor url) data p,
      ∃ reads, fs.snapshot (snapshotPath dir nb.1 url) = some reads ∧ ReadsTo reads nb.2)
    (acceptEnc inm : Str) (keepAlive isHead : Bool) :
    (serveCached fs e acceptEnc inm keepAlive isHead p).out =
        (fileResponse env.compressors (mimeFor url) data p h url acceptEnc inm keepAlive isHead
          (chosenBody env.compressors (mimeFor url) data p acceptEnc).1).render ∧
      (serveCached fs e acceptEnc inm keepAlive isHead p).result = some keepAlive := by
  have hmem := serveMem_makeCached (c := env.compressors) hp (rfl : mimeFor url = _) data acceptEnc inm keepAlive isHead
  cases buildDir with
  | none =>
    cases Option.some.inj he
    rw [serveCached, hmem]
    exact ⟨rfl, rfl⟩
  | some dir =>
    unfold entryFor at he
    simp only at he
    split at he
    · cases he
      have hsame := sameEntry_diskEntry (hfs dir rfl) acceptEnc inm keepAlive isHead
      rw [← hsame.out, ← hsame.result, serveCached, hmem]
      exact ⟨rfl, rfl⟩
    · cases he

/-! ## Published files -/

/-- A URL and the bytes of the readable regular file it names: within the size limit, reached through
visible components, and written in disk mode. -/
def Published (env : BuildEnv) (p : Policy) (seq : Nat) (root : Node) (url : Str) (data : Bytes) : Prop :=
  ∃ names info, At root names (.file info (some data)) ∧ url = urlOf names ∧ info.size ≤ p.t.maxFileSize ∧
    Written env p seq url data

section

variable {env : BuildEnv} {p : Policy} {seq : Nat} {root : Node} {cache : SiteCache} {url : Str} {data : Bytes}

theorem Published.lookup (hh : Holds env p seq root cache) (hp : Published env p seq root url data) :
    ∃ e, cache.map.lookup url = some e ∧ entryFor env p (snapshotDir p seq) url data = some e := by
  obtain ⟨names, info, hat, hurl, hsize, hwritten⟩ := hp
  obtain ⟨e, he⟩ := Option.isSome_iff_exists.1 (entryFor_isSome.2 hwritten)
  exact ⟨e, (hh.lookup url e).2 ⟨names, info, data, hat, hurl, hsize, he⟩, he⟩

theorem Holds.published (hh : Holds env p seq root cache) {e : Cached} (he : cache.map.lookup url = some e) :
    ∃ data, Published env p seq root url data ∧ entryFor env p (snapshotDir p seq) url data = some e := by
  obtain ⟨names, info, data, hat, hurl, hsize, hentry⟩ := (hh.lookup url e).1 he
  exact ⟨data, ⟨names, info, hat, hurl, hsize, entryFor_isSome.1 (by rw [hentry]; rfl)⟩, hentry⟩

/-- The bodies of a published file read back from an unmodified snapshot. -/
theorem Published.readable {fs : FileSys} (hh : Holds env p seq root cache)
    (hfs : ∀ dir files, cache.buildDir = some ⟨dir, files⟩ → Unmodified fs files)
    (hp : Published env p seq root url data) : ∀ dir, snapshotDir p seq = some dir →
    ∀ nb ∈ bodies env.compressors (mimeFor url) data p,
      ∃ reads, fs.snapshot (snapshotPath dir nb.1 url) = some reads ∧ ReadsTo reads nb.2 := by
  obtain ⟨names, info, hat, rfl, hsize, hwritten⟩ := hp
  intro dir hdir nb hnb
  obtain ⟨files, hbuild, hstored⟩ := hh.stored names info data hat hsize (entryFor_isSome.2 hwritten) dir hdir
  exact hfs dir files hbuild _ _ (hstored nb hnb)

theorem isUtf8_urlOf : ∀ {names : List Str}, (∀ x ∈ names, IsName x) → isUtf8 (urlOf names) = true
  | [], _ => rfl
  | n :: names, h => by
    have hslash : isUtf8 (str "/") = true := by decide
    rw [urlOf_cons, List.append_assoc, isUtf8_append hslash, isUtf8_append (h n List.mem_cons_self).utf8]
    exact isUtf8_urlOf fun x hx => h x (List.mem_cons_of_mem _ hx)

/-- A published URL starts with a slash, ends with none, and is UTF-8. -/
theorem Published.url_spec (hw : WellNamed root) (hroot : root.isDir = true) (hp : Published env p seq root url data) :
    url.head? = some 47 ∧ (str "/").isSuffixOf url = false ∧ isUtf8 url = true := by
  obtain ⟨names, info, hat, rfl, -, -⟩ := hp
  have hnames := hat.names hw
  refine ⟨?_, ?_, isUtf8_urlOf hnames⟩
  · cases names with
    | nil => cases hat; simp [Node.isDir] at hroot
    | cons n names => rfl
  · rcases List.eq_nil_or_concat names with rfl | ⟨init, n, rfl⟩
    · cases hat; simp [Node.isDir] at hroot
    · have hn := hnames n (by simp)
      have hurl : urlOf (init.concat n) = (urlOf init ++ str "/") ++ n := by simp [urlOf]
      rw [hurl, str_slash, Bool.eq_false_iff]
      intro hsuf
      obtain ⟨t, ht⟩ := List.isSuffixOf_iff_suffix.1 hsuf
      have hlast := congrArg List.getLast? ht
      rw [List.getLast?_append_of_ne_nil _ hn.nonempty, List.getLast?_concat] at hlast
      exact hn.noSlash (List.mem_of_getLast? hlast.symm)

end

/-! ## Fetching -/

/-- A site without rules or folding redirects no HTTPS request. -/
theorem redirectFor_none {site : Site} (hrules : site.redirects.isEmpty = true) (hcanon : site.canonicalUrls = false)
    (vhosts : Vhosts) (hostKey target path query decoded : Str) :
    redirectFor site vhosts hostKey target path query decoded false = none := by
  simp only [Redirects.isEmpty, Bool.and_eq_true, List.isEmpty_iff, Option.isNone_iff_eq_none] at hrules
  obtain ⟨⟨hexact, hprefixes⟩, hall⟩ := hrules
  have hresolve : site.redirects.resolve path = none := by
    unfold Redirects.resolve AList.lookup
    rw [hexact, hprefixes, hall]
    rfl
  unfold redirectFor
  simp only [hresolve, hcanon, Bool.false_and, Bool.false_eq_true, if_false]
  split <;> rfl

section

variable {fs : FileSys} {env : BuildEnv} {p : Policy} {h : HeaderConfig} {seq : Nat} {root : Node} {cache : SiteCache}
  {site : Site}

/-- A plain GET of a published file gets its bytes. -/
theorem handleRequest_fetch (hp : PolicyOf h p) (hw : WellNamed root) (hroot : root.isDir = true)
    (hh : Holds env p seq root cache) (hfs : ∀ dir files, cache.buildDir = some ⟨dir, files⟩ → Unmodified fs files)
    (hcache : site.cache = cache) (hpolicy : site.policy = p) (hrules : site.redirects.isEmpty = true)
    (hcanon : site.canonicalUrls = false) {url : Str} {data : Bytes} (hpub : Published env p seq root url data)
    (hclean : Clean url) (hacme : acmePrefix.isPrefixOf url = false)
    (hlen : (percentEncodePath url).length < maxPathLen) {vhosts : Vhosts} {host : Str} {head : Bytes} {req : Request}
    (hsite : vhosts.sites.lookup host = some site) (hget : PlainGet host url head req) {sni : Option Str}
    (hsni : sni = none ∨ sni = some host) (wantKa : Bool) :
    (handleRequest fs head vhosts wantKa false sni).out =
        (okResponse (mimeFor url) data.length (etagFor data) none (varies env.compressors (mimeFor url) data p)
          (p.cacheControlFor url) (req.fields.keepAlive && wantKa) h data).render ∧
      (handleRequest fs head vhosts wantKa false sni).result = some (req.fields.keepAlive && wantKa) := by
  obtain ⟨hslash, hnoslash, hutf8⟩ := hpub.url_spec hw hroot
  obtain ⟨e, hlookup, hentry⟩ := hpub.lookup hh
  obtain rfl := hget.host
  have hisHead : req.isHead = false := by rw [Request.isHead, hget.method]; decide
  have hsniOk : (sni.map fun s => s != normalizeHost req.fields.hostHdr).getD false = false := by
    rcases hsni with rfl | rfl
    · rfl
    · simp
  have hpath : targetPath req.target = percentEncodePath url := by
    rw [hget.target]
    refine List.takeWhile_eq_self_iff.2 fun b hb => ?_
    simpa using (isEncoded_spec (mem_percentEncodePath hb)).2.2.1
  have hstart : (percentEncodePath url).isEmpty = false ∧ (str "/").isPrefixOf (percentEncodePath url) = true := by
    cases url with
    | nil => cases hslash
    | cons b t =>
      cases hslash
      exact ⟨rfl, rfl⟩
  have hdecode : (percentDecode (targetPath req.target)).bind fromUtf8 = some url := by
    rw [hpath, percentDecode_percentEncodePath hclean]
    exact fromUtf8_eq_some.2 ⟨hutf8, rfl⟩
  have hanswer := serveCached_entryFor fs hp hentry (hpub.readable hh hfs) [] [] (req.fields.keepAlive && wantKa)
    false
  rw [fileResponse_identity] at hanswer
  have hmethod : (req.method != str "GET" && !req.isHead) = false := by rw [hget.method]; simp
  have hshort : decide (maxPathLen ≤ (percentEncodePath url).length) = false := by simpa using hlen
  -- no branch before the cache is taken
  have hreply : handleRequest fs head vhosts wantKa false sni =
      serveCached fs e [] [] (req.fields.keepAlive && wantKa) false p := by
    unfold handleRequest
    rw [hget.read]
    simp only
    unfold handleAccepted
    simp only [hsniOk, Bool.false_eq_true, if_false, hsite]
    unfold handleSite
    simp only [hmethod, hpath, hstart.1, hstart.2, hshort, Bool.not_true, Bool.or_self, Bool.false_eq_true, if_false]
    rw [hpath] at hdecode
    simp only [hdecode, redirectFor_none hrules hcanon]
    unfold serveContent
    simp only [hacme, Bool.false_eq_true, if_false, hcache, hpolicy, resolve_self hlookup hnoslash, hget.acceptEnc,
      hget.inm, hisHead]
  rw [hreply]
  exact hanswer

/-- The first of the candidates that is a key. -/
def firstKey (cache : SiteCache) (d : Str) : Option Str := (candidates d).find? fun k => (cache.map.lookup k).isSome

theorem firstKey_of_findSome? {d : Str} {e : Cached} (he : (candidates d).findSome? cache.map.lookup = some e) :
    ∃ url, firstKey cache d = some url ∧ cache.map.lookup url = some e := by
  unfold firstKey
  generalize candidates d = ks at he ⊢
  induction ks with
  | nil => cases he
  | cons k ks ih =>
    rw [List.findSome?_cons] at he
    cases hk : cache.map.lookup k with
    | some e' =>
      rw [hk] at he
      cases he
      exact ⟨k, by rw [List.find?_cons_of_pos (by rw [hk]; rfl)], hk⟩
    | none =>
      rw [hk] at he
      obtain ⟨url, hfind, hlookup⟩ := ih he
      exact ⟨url, by rw [List.find?_cons_of_neg (by rw [hk]; simp)]; exact hfind, hlookup⟩

/-- What a 200 outside the token directory carries: a variant of the first candidate of its path. -/
def CarriesFirst (env : BuildEnv) (p : Policy) (h : HeaderConfig) (seq : Nat) (root : Node) (cache : SiteCache) (d : Str)
    (keepAlive isHead : Bool) (out : Bytes) : Prop :=
  ∃ url data body encoding, firstKey cache d = some url ∧ Published env p seq root url data ∧
    (body, encoding) ∈ variantsOf env.compressors (mimeFor url) data p ∧
    out = (okResponse (mimeFor url) body.length (etagFor body) encoding (varies env.compressors (mimeFor url) data p)
      (p.cacheControlFor url) keepAlive h (if isHead then [] else body)).render

/-- An entry's 200 is one of its file's variants. -/
theorem serveCached_ok (hp : PolicyOf h p) (hh : Holds env p seq root cache)
    (hfs : ∀ dir files, cache.buildDir = some ⟨dir, files⟩ → Unmodified fs files) {d : Str} {e : Cached}
    (he : (candidates d).findSome? cache.map.lookup = some e) (acceptEnc inm : Str) (keepAlive isHead : Bool)
    (h200 : statusOf (serveCached fs e acceptEnc inm keepAlive isHead p).out = str "200") :
    CarriesFirst env p h seq root cache d keepAlive isHead (serveCached fs e acceptEnc inm keepAlive isHead p).out := by
  obtain ⟨url, hfirst, hlookup⟩ := firstKey_of_findSome? he
  obtain ⟨data, hpub, hentry⟩ := hh.published hlookup
  have hout := (serveCached_entryFor fs hp hentry (hpub.readable hh hfs) acceptEnc inm keepAlive isHead).1
  have hmem := chosenBody_mem env.compressors (mimeFor url) data p acceptEnc
  rw [hout] at h200 ⊢
  unfold fileResponse variantResponse at h200 ⊢
  generalize chosenBody env.compressors (mimeFor url) data p acceptEnc = b at h200 hmem ⊢
  simp only at h200 ⊢
  split
  · rename_i hnm
    rw [if_pos hnm] at h200
    refine absurd h200 (statusOf_ne ?_)
    show 304 ∈ _
    decide
  · exact ⟨url, data, b.1, b.2, hfirst, hpub, hmem, rfl⟩

/-- Every 200 outside the token directory carries a variant of the first candidate of its path. -/
theorem handleRequest_carriesFirst (hp : PolicyOf h p) (hh : Holds env p seq root cache)
    (hfs : ∀ dir files, cache.buildDir = some ⟨dir, files⟩ → Unmodified fs files) (hcache : site.cache = cache)
    (hpolicy : site.policy = p) {vhosts : Vhosts} {server : HeaderConfig}
    (herrors : vhosts.errors = ErrorPages.new server.render) {head : Bytes} {req : Request}
    (hread : readRequest head = .ok req) (hsite : vhosts.sites.lookup (normalizeHost req.fields.hostHdr) = some site)
    (wantKa redirectHttps : Bool) (sni : Option Str)
    (h200 : statusOf (handleRequest fs head vhosts wantKa redirectHttps sni).out = str "200") :
    ∃ d, (percentDecode (targetPath req.target)).bind fromUtf8 = some d ∧ (acmePrefix.isPrefixOf d = true ∨
      CarriesFirst env p h seq root cache d (req.fields.keepAlive && wantKa) req.isHead
        (handleRequest fs head vhosts wantKa redirectHttps sni).out) := by
  have hpages := fun keepAlive => statusOf_errorPages h keepAlive req.isHead
  -- the status excludes every branch that writes an error page or a redirect
  unfold handleRequest at h200 ⊢
  rw [hread] at h200 ⊢
  simp only at h200 ⊢
  unfold handleAccepted at h200 ⊢
  simp only [hsite] at h200 ⊢
  split at h200
  · rw [herrors] at h200
    exact absurd h200 (statusOf_errorPages server _ _).2.1
  rename_i hsni
  rw [if_neg hsni]
  unfold handleSite at h200 ⊢
  simp only [hpolicy, hp.errors] at h200 ⊢
  split at h200
  · exact absurd h200 (hpages _).2.2
  rename_i hmethod
  rw [if_neg hmethod]
  split at h200
  · exact absurd h200 (hpages _).1
  rename_i hpath
  rw [if_neg hpath]
  cases hdecode : (percentDecode (targetPath req.target)).bind fromUtf8 with
  | none =>
    rw [hdecode] at h200
    exact absurd h200 (hpages _).1
  | some d =>
    refine ⟨d, rfl, ?_⟩
    rw [hdecode] at h200
    simp only at h200 ⊢
    split at h200
    · rw [hp.securityHeaders] at h200
      exact absurd h200 (statusOf_sendRedirect h _ _)
    · rename_i hredirect
      unfold serveContent at h200 ⊢
      simp only [hpolicy, hp.errors, hcache] at h200 ⊢
      split at h200
      · rename_i hacme
        exact .inl hacme
      · rename_i hacme
        refine .inr ?_
        rw [if_neg hacme]
        cases hres : resolve cache.map d with
        | none =>
          rw [hres] at h200
          exact absurd h200 (hpages _).2.1
        | some r =>
          rw [hres] at h200
          cases r with
          | entry e => exact serveCached_ok hp hh hfs (resolve_entry hres) _ _ _ _ h200
          | dirIndex =>
            simp only at h200
            rw [hp.securityHeaders] at h200
            exact absurd h200 (statusOf_sendRedirect h _ _)

end

/-! ## A built cache -/

theorem buildCache_isDir {env : BuildEnv} {p : Policy} {seq total seq' total' : Nat} {root : Node} {cache : SiteCache}
    (h : buildCache env p seq root total = (some (cache, total'), seq')) : root.isDir = true := by
  unfold buildCache at h
  split at h
  · rfl
  · simp at h

/-- The keys of a cache built from a tree are the URLs of its published files. While the snapshot, if
there is one, stays as written, a plain GET of a published file's URL answers with the file's bytes,
and every 200 outside the token directory carries a variant of the first candidate of its path. -/
theorem buildCache_fidelity (t : Tuning) (h : HeaderConfig) (storage : Storage) (diskCache : Path) (env : BuildEnv)
    (root : Node) (hw : WellNamed root) (seq total total' seq' : Nat) (cache : SiteCache)
    (hbuild : buildCache env (.withHeaders t h storage diskCache) seq root total = (some (cache, total'), seq')) :
    let p := Policy.withHeaders t h storage diskCache
    (∀ url, (cache.map.lookup url).isSome ↔ ∃ data, Published env p seq root url data) ∧
    ∀ fs, (∀ dir files, cache.buildDir = some ⟨dir, files⟩ → Unmodified fs files) → ∀ (site : Site) (vhosts : Vhosts),
      site.cache = cache → site.policy = p →
      (site.redirects.isEmpty = true → site.canonicalUrls = false → ∀ url data, Published env p seq root url data →
        Clean url → acmePrefix.isPrefixOf url = false → (percentEncodePath url).length < maxPathLen →
        ∀ host head req sni wantKa, vhosts.sites.lookup host = some site → PlainGet host url head req →
          (sni = none ∨ sni = some host) →
          (handleRequest fs head vhosts wantKa false sni).out =
            (okResponse (mimeFor url) data.length (etagFor data) none (varies env.compressors (mimeFor url) data p)
              (p.cacheControlFor url) (req.fields.keepAlive && wantKa) h data).render) ∧
      (∀ server, vhosts.errors = ErrorPages.new (HeaderConfig.render server) → ∀ head req wantKa redirectHttps sni,
        readRequest head = .ok req → vhosts.sites.lookup (normalizeHost req.fields.hostHdr) = some site →
        statusOf (handleRequest fs head vhosts wantKa redirectHttps sni).out = str "200" →
        ∃ d, (percentDecode (targetPath req.target)).bind fromUtf8 = some d ∧ (acmePrefix.isPrefixOf d = true ∨
          CarriesFirst env p h seq root cache d (req.fields.keepAlive && wantKa) req.isHead
            (handleRequest fs head vhosts wantKa redirectHttps sni).out)) := by
  intro p
  have hp : PolicyOf h p := policyOf_withHeaders h t storage diskCache
  have hh := buildCache_holds hw hbuild
  have hroot := buildCache_isDir hbuild
  refine ⟨fun url => ⟨fun hsome => ?_, ?_⟩, fun fs hfs site vhosts hcache hpolicy => ⟨?_, ?_⟩⟩
  · obtain ⟨e, he⟩ := Option.isSome_iff_exists.1 hsome
    obtain ⟨data, hpub, -⟩ := hh.published he
    exact ⟨data, hpub⟩
  · rintro ⟨data, hpub⟩
    obtain ⟨e, he, -⟩ := hpub.lookup hh
    rw [he]
    rfl
  · intro hrules hcanon url data hpub hclean hacme hlen host head req sni wantKa hsite hget hsni
    exact (handleRequest_fetch hp hw hroot hh hfs hcache hpolicy hrules hcanon hpub hclean hacme hlen hsite hget hsni
      wantKa).1
  · intro server herrors head req wantKa redirectHttps sni hread hsite h200
    exact handleRequest_carriesFirst hp hh hfs hcache hpolicy herrors hread hsite wantKa redirectHttps sni h200

/-- The script of the sidecar tree, from disk. -/
theorem buildCache_fidelity_script : ∃ cache dir files, cache.buildDir = some ⟨dir, files⟩ ∧
    (cache.map.lookup (str "/a.js")).isSome ∧
    (handleRequest (readBack files) (plainHead (str "a.example") (str "/a.js")) (sidecarTable .disk cache) true false
        none).out =
      (okResponse (mimeFor (str "/a.js")) (str "let a;").length (etagFor (str "let a;")) none
        (varies sidecarEnv.compressors (mimeFor (str "/a.js")) (str "let a;") (sidecarPolicy .disk))
        ((sidecarPolicy .disk).cacheControlFor (str "/a.js")) true .default (str "let a;")).render := by
  obtain ⟨⟨cache, total⟩, hbuild⟩ := Option.isSome_iff_exists.1
    (show (buildCache sidecarEnv (sidecarPolicy .disk) 0 sidecarTree 0).1.isSome from by decide +kernel)
  obtain ⟨dir, files, hdir⟩ : ∃ dir files, cache.buildDir = some ⟨dir, files⟩ := by
    obtain ⟨fs, b, -, -, rfl⟩ := buildCache_some (pair_of_fst hbuild)
    exact ⟨_, b.files, rfl⟩
  have hfs : ∀ dir' files', cache.buildDir = some ⟨dir', files'⟩ → Unmodified (readBack files) files' := by
    intro dir' files' hdir'
    rw [hdir] at hdir'
    cases hdir'
    exact unmodified_readBack files
  have hpub : Published sidecarEnv (sidecarPolicy .disk) 0 sidecarTree (str "/a.js") (str "let a;") :=
    ⟨[str "a.js"], ⟨6, none⟩, .down List.mem_cons_self (by decide) (.here _), by decide, by decide, fun _ _ _ _ => rfl⟩
  have hfid := buildCache_fidelity { Tuning.default with minCompressBytes := 1 } .default .disk (str "/snap") sidecarEnv
    sidecarTree wellNamed_sidecarTree 0 0 total _ cache (pair_of_fst hbuild)
  have hget := (hfid.2 _ hfs (sidecarSite.storing .disk cache) (sidecarTable .disk cache) rfl rfl).1 rfl rfl _ _ hpub
  have hsite : (sidecarTable .disk cache).sites.lookup (str "a.example") = some (sidecarSite.storing .disk cache) :=
    AList.lookup_insert _
  have hplain : PlainGet (str "a.example") (str "/a.js") (plainHead (str "a.example") (str "/a.js"))
    (plainRequest (str "a.example") (str "/a.js")) := plainGet_plainHead (by decide) (by decide)
  have hout := hget (by decide) (by decide) (by decide) _ _ _ none true hsite hplain (.inl rfl)
  refine ⟨cache, dir, files, hdir, (hfid.1 _).2 ⟨_, hpub⟩, hout.trans ?_⟩
  simp only [plainRequest, Bool.and_self, sidecarPolicy]

/-- A snapshot write that fails leaves its file out of a cache that is built all the same. -/
theorem keys_without_failed_write : ¬ ∀ (env : BuildEnv) (p : Policy) (seq total total' seq' : Nat) (root : Node)
    (cache : SiteCache), WellNamed root → buildCache env p seq root total = (some (cache, total'), seq') →
    ∀ url, (cache.map.lookup url).isSome ↔ ∃ names info data, At root names (.file info (some data)) ∧
      url = urlOf names ∧ info.size ≤ p.t.maxFileSize := by
  intro h
  let env : BuildEnv := ⟨sidecarEnv.compressors, fun _ => true, fun _ => false⟩
  have hbuilt : (buildCache env (sidecarPolicy .disk) 0 sidecarTree 0).1.any
      (fun built => (built.1.map.lookup (str "/a.js")).isNone) = true := by decide +kernel
  obtain ⟨⟨cache, total⟩, hbuild, hnone⟩ := (Option.any_eq_true _ _).1 hbuilt
  have hat : At sidecarTree [str "a.js"] (.file ⟨6, none⟩ (some (str "let a;"))) :=
    .down List.mem_cons_self (by decide) (.here _)
  have hsome := (h env _ 0 0 total _ sidecarTree cache wellNamed_sidecarTree (pair_of_fst hbuild) (str "/a.js")).2
    ⟨[str "a.js"], ⟨6, none⟩, str "let a;", hat, by decide, by decide⟩
  rw [Option.isNone_iff_eq_none.1 hnone] at hsome
  cases hsome

end BareServer
