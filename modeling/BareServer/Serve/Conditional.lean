/-
A request with a condition beside the same request without one. The header of a 304 is written when it is
sent and the header of a 200 when its file was read, and yet the one is the other without the two fields
that describe the body.
-/
import BareServer.Serve.EntityTags
import BareServer.Serve.Repeated

namespace BareServer

open BareServer.Lib

/-! ## The line -/

/-- A head without an If-None-Match line, and such a line to be put among its header lines. -/
structure Condition where
  reqline : Bytes
  pre : List Bytes
  name : Str
  value : Str
  post : List Bytes
  named : eqIgnoreCase name (str "if-none-match") = true
  text : TextLine (name ++ 58 :: value)
  header : ∀ l ∈ pre, l ≠ []
  breaks : ∀ l ∈ reqline :: (pre ++ post), 13 ∉ l
  only : fieldValues (str "if-none-match") (heading (pre ++ post)) = []

namespace Condition

variable (l : Condition)

/-- The value of the field. -/
def field : Str := trim l.value

/-- The head without the condition. -/
def plain : Bytes := joinCrlf (l.reqline :: (l.pre ++ l.post))

def conditional : Bytes := joinCrlf (l.reqline :: (l.pre ++ (l.name ++ 58 :: l.value) :: l.post))

end Condition

/-- A name that is another one in some case has bytes of that. -/
theorem toLower_mem {name n : Str} (h : eqIgnoreCase name n = true) {b : UInt8} (hb : b ∈ name) : toLower b ∈ lower n := by
  rw [eqIgnoreCase, beq_iff_eq] at h
  rw [← h]
  exact List.mem_map_of_mem hb

/-- A line with a name that has no blank and no colon is read as that name. -/
theorem fieldOf_named {name : Str} (hne : name ≠ []) (hcolon : 58 ∉ name) (hblank : ∀ b ∈ name, isBlank b = false)
    (value : Str) : fieldOf (name ++ 58 :: value) = some (name, trim value) := by
  have htexts : str ":" = [58] ∧ str " " = [32] ∧ str "\t" = [9] := by decide
  have hfolded : ((str " ").isPrefixOf (name ++ 58 :: value) || (str "\t").isPrefixOf (name ++ 58 :: value)) = false := by
    cases name with
    | nil => exact absurd rfl hne
    | cons b name =>
      have hb := hblank b List.mem_cons_self
      simp only [isBlank, Bool.or_eq_false_iff, beq_eq_false_iff_ne] at hb
      simp [htexts, List.isPrefixOf_cons_cons, Ne.symm hb.1, Ne.symm hb.2]
  have hname : (name.isEmpty || name.any fun b => b == 32 || b == 9) = false := by
    rw [Bool.or_eq_false_iff, List.isEmpty_eq_false_iff, List.any_eq_false]
    exact ⟨hne, fun b hb => Bool.eq_false_iff.1 (hblank b hb)⟩
  unfold fieldOf
  rw [hfolded, if_neg Bool.false_ne_true, htexts.1, splitOnce_append hcolon]
  exact if_neg (Bool.eq_false_iff.1 hname)

theorem Condition.fieldOf_line (l : Condition) : fieldOf (l.name ++ 58 :: l.value) = some (l.name, l.field) := by
  have hbytes : 58 ∉ lower (str "if-none-match") ∧ 32 ∉ lower (str "if-none-match") ∧ 9 ∉ lower (str "if-none-match") := by
    decide
  refine fieldOf_named ?_ (fun hb => hbytes.1 (toLower_mem l.named hb)) (fun b hb => ?_) l.value
  · intro hnil
    have hnamed := l.named
    rw [hnil] at hnamed
    exact absurd hnamed (by decide)
  · simp only [isBlank, Bool.or_eq_false_iff, beq_eq_false_iff_ne]
    have hmem := toLower_mem l.named hb
    constructor
    · rintro rfl
      exact hbytes.2.1 hmem
    · rintro rfl
      exact hbytes.2.2 hmem

/-- A line of another name is taken alike, whatever the condition. -/
theorem fieldLine_inm {f f' : Fields} {line : Str} (h : fieldLine f line = some f')
    (hn : ∀ n v, fieldOf line = some (n, v) → eqIgnoreCase n (str "if-none-match") = false) (x : Str) :
    fieldLine { f with inm := x } line = some { f' with inm := x } := by
  unfold fieldLine at h ⊢
  cases hf : fieldOf line with
  | none => rw [hf] at h; cases h
  | some nv =>
    obtain ⟨name, value⟩ := nv
    rw [hf] at h
    simp only [hn name value hf, Bool.false_eq_true, if_false] at h ⊢
    split at h
    · rename_i hhost
      rw [if_pos hhost]
      split at h
      · cases h
      · rename_i hseen
        cases h
        exact if_neg hseen
    rename_i hhost
    rw [if_neg hhost]
    split at h
    · rename_i hlen
      cases h
      rw [if_pos hlen]
      split <;> rfl
    rename_i hlen
    rw [if_neg hlen]
    split at h
    · rename_i hte
      cases h
      exact if_pos hte
    rename_i hte
    rw [if_neg hte]
    split at h
    · rename_i hconn
      cases h
      exact if_pos hconn
    rename_i hconn
    rw [if_neg hconn]
    split at h
    · rename_i hae
      cases h
      exact if_pos hae
    · rename_i hae
      cases h
      exact if_neg hae

theorem foldlM_inm {f f' : Fields} {ls : List Str} (h : ls.foldlM fieldLine f = some f')
    (hn : fieldValues (str "if-none-match") ls = []) (x : Str) :
    ls.foldlM fieldLine { f with inm := x } = some { f' with inm := x } := by
  have hnone : ∀ l ∈ ls, ∀ n v, fieldOf l = some (n, v) → eqIgnoreCase n (str "if-none-match") = false := by
    intro l hl n v hf
    refine Bool.eq_false_iff.2 fun hname => ?_
    have hmem := mem_fieldValues hl hf hname
    rw [hn] at hmem
    cases hmem
  clear hn
  induction ls generalizing f with
  | nil =>
    cases h
    rfl
  | cons l ls ih =>
    rw [List.foldlM_cons] at h ⊢
    obtain ⟨g, h1, h2⟩ := Option.bind_eq_some_iff.1 h
    rw [fieldLine_inm h1 (hnone l List.mem_cons_self)]
    exact ih h2 fun l' hl' => hnone l' (List.mem_cons_of_mem _ hl')

/-- The line is taken, and leaves its value. -/
theorem Condition.fieldLine_line (l : Condition) (f : Fields) :
    fieldLine f (l.name ++ 58 :: l.value) = some { f with inm := l.field } := by
  have hother : ∀ {b : Str}, lower (str "if-none-match") ≠ lower b → eqIgnoreCase l.name b = false :=
    fun hb => eqIgnoreCase_other l.named hb
  have hhost := @hother (str "host") (by decide)
  have hlen := @hother (str "content-length") (by decide)
  have hte := @hother (str "transfer-encoding") (by decide)
  have hconn := @hother (str "connection") (by decide)
  rw [fieldLine, l.fieldOf_line]
  simp only [hhost, hlen, hte, hconn, l.named, Bool.false_eq_true, if_false, if_true]

/-- The head with the line is read as the head without it, but for the condition. -/
theorem Condition.read (l : Condition) {req : Request} (h : readRequest l.plain = .ok req) :
    req.fields.inm = [] ∧ readRequest l.conditional = .ok { req with fields := { req.fields with inm := l.field } } := by
  obtain ⟨reqline, ls, hsplit, -, htext, hread⟩ := lines_of_readRequest h
  have hlines : splitCrlf l.plain = l.reqline :: (l.pre ++ l.post) := splitCrlf_joinCrlf (List.cons_ne_nil _ _) l.breaks
  obtain ⟨rfl, rfl⟩ := List.cons.inj (hlines.symm.trans hsplit)
  have hfields := hread.fields
  have honly := l.only
  rw [fieldLines_heading] at hfields
  have hinm := (says_lines hfields).inm
  rw [heading_append l.header] at hfields honly
  rw [heading_append l.header, honly] at hinm
  rw [fieldValues_append, List.append_eq_nil_iff] at honly
  -- the pass up to the line, over it and behind it
  rw [List.foldlM_append] at hfields
  obtain ⟨f1, hpre, hpost⟩ := Option.bind_eq_some_iff.1 hfields
  have hlineNe : ∀ x ∈ l.pre ++ [l.name ++ 58 :: l.value], x ≠ [] := by
    intro x hx
    rcases List.mem_append.1 hx with hx | hx
    · exact l.header x hx
    · rw [List.mem_singleton.1 hx]
      simp
  have hheading := heading_append hlineNe l.post
  rw [List.append_assoc, List.append_assoc] at hheading
  have hcond : fieldLines ⟨req.version == str "HTTP/1.1", [], [], [], false, false⟩
      (l.pre ++ (l.name ++ 58 :: l.value) :: l.post) = some { req.fields with inm := l.field } := by
    rw [fieldLines_heading]
    refine (congrArg (List.foldlM fieldLine _) hheading).trans ?_
    rw [List.foldlM_append, hpre]
    show List.foldlM fieldLine f1 ([l.name ++ 58 :: l.value] ++ heading l.post) = _
    rw [List.singleton_append, List.foldlM_cons, l.fieldLine_line]
    exact foldlM_inm hpost honly.2 l.field
  have hall : ∀ x ∈ l.reqline :: (l.pre ++ (l.name ++ 58 :: l.value) :: l.post), TextLine x := by
    intro x hx
    simp only [List.mem_cons, List.mem_append] at hx htext
    rcases hx with hx | hx | hx | hx
    · exact htext x (.inl hx)
    · exact htext x (.inr (.inl hx))
    · exact hx ▸ l.text
    · exact htext x (.inr (.inr hx))
  exact ⟨hinm, (readRequest_joinCrlf hall _).2
    ⟨hread.line, hread.method_ne, hread.target_ne, hread.version, hread.target, hcond, hread.noBody⟩⟩

/-! ## From an entry -/

/-- The request is answered from a cache entry of a site: it got through, it asks for content, nothing redirects
it, and its path leads to the entry. -/
structure FromEntry (vhosts : Vhosts) (sni : Option Str) (redirectHttps : Bool) (head : Bytes) (req : Request)
    (site : Site) (path : Str) (e : Cached) : Prop where
  reached : Reached vhosts sni head req site path
  fetches : req.fetches = true
  acme : ¬ acmePrefix <+: path
  unmoved : redirectFor site vhosts (normalizeHost req.fields.hostHdr) req.target (targetPath req.target)
    (targetQuery req.target) path redirectHttps = none
  entry : resolve site.cache.map path = some (.entry e)

section

variable {vhosts : Vhosts} {sni : Option Str} {redirectHttps keepAlive isHead : Bool} {head : Bytes} {req : Request}
  {site : Site} {path acceptEnc inm : Str} {e : Cached} {h : HeaderConfig} {fs : FileSys}

variable (fs) in
theorem FromEntry.reply (hf : FromEntry vhosts sni redirectHttps head req site path e) (wantKa : Bool) :
    handleRequest fs head vhosts wantKa redirectHttps sni =
      serveCached fs e req.fields.acceptEnc req.fields.inm (req.fields.keepAlive && wantKa) req.isHead site.policy := by
  have hacme : acmePrefix.isPrefixOf path = false := Bool.eq_false_iff.2 (mt List.isPrefixOf_iff_prefix.1 hf.acme)
  rw [hf.reached.reply fs wantKa redirectHttps, hf.fetches, if_pos rfl, hf.unmoved]
  simp only [serveContent, hacme, Bool.false_eq_true, if_false, hf.entry]

/-- The condition decides nothing of where a request is answered from. -/
theorem FromEntry.conditional {l : Condition} (hf : FromEntry vhosts sni redirectHttps l.plain req site path e) :
    FromEntry vhosts sni redirectHttps l.conditional { req with fields := { req.fields with inm := l.field } } site path e where
  reached := ⟨(l.read hf.reached.read).2, hf.reached.sni, hf.reached.site, hf.reached.slash, hf.reached.short, hf.reached.decoded⟩
  fetches := hf.fetches
  acme := hf.acme
  unmoved := hf.unmoved
  entry := hf.entry

/-! ## The 304 beside the 200 -/

/-- A 304 without a body, whose fields are those of the other reply but for the two that describe its body. -/
structure Reply.Repeats (r g : Reply) : Prop where
  status : statusOf r.out = str "304"
  body : Response.bodyOf r.out = some []
  fields : ∀ name, eqIgnoreCase (str "Content-Type") name = false → eqIgnoreCase (str "Content-Length") name = false →
    Response.valuesOf name r.out = Response.valuesOf name g.out

/-- The fields of a file's answer with and without a match. -/
theorem fileResponse_repeats (hc : Clean h.csp) {p : Policy} (hp : PolicyOf h p) {c : Compressors} {data : Bytes}
    {url : Str} {r g : Reply} {content content' : Bytes}
    (hm : notModified inm (etagFor (chosenBody c (mimeFor url) data p acceptEnc).1) = true)
    (hr : r.out = (fileResponse c (mimeFor url) data p h url acceptEnc inm keepAlive isHead content').render)
    (hg : g.out = (fileResponse c (mimeFor url) data p h url acceptEnc [] keepAlive isHead content).render) : r.Repeats g := by
  have hbody := fileResponse_body hc hp hr
  rw [if_pos hm] at hbody
  refine ⟨hbody.1, hbody.2, fun name hct hcl => ?_⟩
  obtain ⟨hreason, hfields⟩ := fileResponse_clean keepAlive isHead c data url acceptEnc inm content' hc hp
  obtain ⟨hreason', hfields'⟩ := fileResponse_clean keepAlive isHead c data url acceptEnc [] content hc hp
  rw [hr, hg, Response.valuesOf_render hreason.no_lf hfields.oneLine, Response.valuesOf_render hreason'.no_lf hfields'.oneLine]
  have hnone : notModified [] (etagFor (chosenBody c (mimeFor url) data p acceptEnc).1) = false := rfl
  refine congrArg (List.map Prod.snd) ?_
  unfold fileResponse variantResponse Response.named
  simp only [hm, hnone, if_true, Bool.false_eq_true, if_false, notModifiedResponse, okResponse, List.filter_append,
    List.filter_cons, List.filter_nil, hct, hcl, List.nil_append]

/-- What an entry answers with a condition, when it answers with a 200 without one. -/
theorem serveCached_conditional (hs : SafeSite h site) {url : Str} (he : site.cache.map.lookup url = some e)
    (h200 : statusOf (serveCached fs e acceptEnc [] keepAlive isHead site.policy).out = str "200") :
    ∃ body, Response.valuesOf (str "etag") (serveCached fs e acceptEnc [] keepAlive isHead site.policy).out =
        [str "\"" ++ etagFor body ++ str "\""] ∧
      ∀ inm, if notModified inm (etagFor body) then
          (serveCached fs e acceptEnc inm keepAlive isHead site.policy).Repeats
            (serveCached fs e acceptEnc [] keepAlive isHead site.policy)
        else serveCached fs e acceptEnc inm keepAlive isHead site.policy =
          serveCached fs e acceptEnc [] keepAlive isHead site.policy := by
  have hp := hs.policy
  obtain ⟨c, data, rfl | ⟨bd, rfl⟩⟩ := hs.entries url e he
  · have hserve := fun inm => serveMem_makeCached (c := c) hp (rfl : mimeFor url = _) data acceptEnc inm keepAlive isHead
    have hout : (serveCached fs (.mem (makeCached c url (mimeFor url) data site.policy)) acceptEnc [] keepAlive isHead site.policy).out =
        (fileResponse c (mimeFor url) data site.policy h url acceptEnc [] keepAlive isHead
          (chosenBody c (mimeFor url) data site.policy acceptEnc).1).render := congrArg Reply.out (hserve [])
    refine ⟨(chosenBody c (mimeFor url) data site.policy acceptEnc).1, ?_, fun inm => ?_⟩
    · rw [hout]
      exact (fileResponse_fields hs.csp hp).etag
    · split
      · rename_i hm
        exact fileResponse_repeats hs.csp hp hm (congrArg Reply.out (hserve inm)) hout
      · rename_i hm
        have hnone : notModified [] (etagFor (chosenBody c (mimeFor url) data site.policy acceptEnc).1) = false := rfl
        rw [serveCached, serveCached, serveMem, serveMem, makeCached_pick]
        simp only [buildVariant, Bool.eq_false_iff.2 hm, hnone]
  · obtain ⟨ns, -, hpick, hget⟩ := serveDisk_diskEntry (c := c) hp (rfl : mimeFor url = _) fs data bd acceptEnc [] keepAlive isHead
    have hnone : notModified [] (etagFor (chosenBody c (mimeFor url) data site.policy acceptEnc).1) = false := rfl
    have hout : ∃ content, (serveDisk fs (diskEntry c url (mimeFor url) data site.policy bd) acceptEnc [] keepAlive isHead site.policy).out =
        (fileResponse c (mimeFor url) data site.policy h url acceptEnc [] keepAlive isHead content).render := by
      rw [serveCached, hget, hnone, Bool.false_or] at h200
      rw [hget, hnone, Bool.false_or]
      cases isHead with
      | true => exact ⟨[], rfl⟩
      | false =>
        simp only [Bool.false_eq_true, if_false] at h200 ⊢
        cases hsnap : fs.snapshot (snapshotPath bd ns url) with
        | none =>
          -- a file that does not open is a 500
          rw [hsnap, hp.errors] at h200
          exact absurd h200 (statusOf_sendError h (by decide) false false)
        | some reads => exact ⟨_, rfl⟩
    obtain ⟨content, hout⟩ := hout
    refine ⟨(chosenBody c (mimeFor url) data site.policy acceptEnc).1, ?_, fun inm => ?_⟩
    · rw [serveCached, hout]
      exact (fileResponse_fields hs.csp hp).etag
    · split
      · rename_i hm
        obtain ⟨_, -, -, hcond⟩ := serveDisk_diskEntry (c := c) hp (rfl : mimeFor url = _) fs data bd acceptEnc inm keepAlive isHead
        rw [hm, Bool.true_or, if_pos rfl] at hcond
        exact fileResponse_repeats hs.csp hp hm (congrArg Reply.out hcond) hout
      · rename_i hm
        rw [serveCached, serveCached, serveDisk, serveDisk, hpick]
        simp only [diskVariant, Bool.eq_false_iff.2 hm, hnone]

/-- A field in which the asked tag is listed matches it. -/
theorem inmMatches_listed {items : List TagItem} {t : EntityTag} (ht : t ∈ (TagField.list items).tags) {body : Bytes}
    (hchars : t.chars = etagFor body) : inmMatches (trim (TagField.list items).text) (etagFor body) = true := by
  have hmatch := (inmMatches_text (etagFor_validator body) (.list items)).2 (.inl (.inr ⟨t, ht, hchars⟩))
  unfold inmMatches at hmatch ⊢
  rwa [trim_trim]

end

/-- A request that is answered with a 200 from a cache entry is answered, with an If-None-Match, by a 304 exactly
when the field matches the ETag of the 200; the 304 has no body and repeats every field of the 200 that does not
describe the body; otherwise the answer is the same 200. A list that holds the ETag itself, weak or not, matches. -/
theorem conditional_agrees (l : Condition) (hfield : l.field ≠ []) (fs : FileSys) (vhosts : Vhosts) (hstocked : Stocked vhosts)
    (wantKa redirectHttps : Bool) (sni : Option Str) (req : Request) (site : Site) (path : Str) (e : Cached)
    (hfrom : FromEntry vhosts sni redirectHttps l.plain req site path e)
    (h200 : statusOf (handleRequest fs l.plain vhosts wantKa redirectHttps sni).out = str "200") :
    let g := handleRequest fs l.plain vhosts wantKa redirectHttps sni
    let r := handleRequest fs l.conditional vhosts wantKa redirectHttps sni
    ∃ etag, Response.valuesOf (str "etag") g.out = [str "\"" ++ etag ++ str "\""] ∧
      (statusOf r.out = str "304" ↔ inmMatches l.field etag = true) ∧
      (inmMatches l.field etag = true → r.Repeats g) ∧
      (inmMatches l.field etag = false → r = g) ∧
      ∀ items, l.value = (TagField.list items).text → (∃ t ∈ (TagField.list items).tags, t.chars = etag) → r.Repeats g := by
  intro g r
  obtain ⟨h, hs⟩ := hstocked _ site hfrom.reached.site
  obtain ⟨url, -, he⟩ := List.exists_of_findSome?_eq_some (resolve_entry hfrom.entry)
  have hnone := (l.read hfrom.reached.read).1
  have hg : g = serveCached fs e req.fields.acceptEnc [] (req.fields.keepAlive && wantKa) req.isHead site.policy := by
    rw [← hnone]
    exact hfrom.reply fs wantKa
  have hr : r = serveCached fs e req.fields.acceptEnc l.field (req.fields.keepAlive && wantKa) req.isHead site.policy :=
    hfrom.conditional.reply fs wantKa
  have h200' : statusOf g.out = str "200" := h200
  rw [hg] at h200'
  obtain ⟨body, hetag, hcond⟩ := serveCached_conditional hs he h200'
  rw [← hg] at hetag h200'
  have hcond := hcond l.field
  have hmatched : notModified l.field (etagFor body) = inmMatches l.field (etagFor body) := by
    have hne : l.field.isEmpty = false := by simpa using hfield
    rw [notModified, hne]
    rfl
  rw [← hg, ← hr, hmatched] at hcond
  have hrepeats : inmMatches l.field (etagFor body) = true → r.Repeats g := fun hm => by rwa [hm, if_pos rfl] at hcond
  have hsame : inmMatches l.field (etagFor body) = false → r = g := fun hm => by
    rwa [hm, if_neg Bool.false_ne_true] at hcond
  refine ⟨etagFor body, hetag, ⟨fun h304 => ?_, fun hm => (hrepeats hm).status⟩, hrepeats, hsame, fun items hv ht => ?_⟩
  · cases hm : inmMatches l.field (etagFor body) with
    | true => rfl
    | false =>
      rw [hsame hm, h200'] at h304
      exact absurd h304 (by decide)
  · obtain ⟨t, ht, hchars⟩ := ht
    refine hrepeats ?_
    rw [Condition.field, hv]
    exact inmMatches_listed ht hchars

theorem hostLine_ne_nil : ∀ l ∈ [str "Host: a.example"], l ≠ [] := by decide

/-- A condition that lists two tags, the second of them weak. -/
def listedTags : Condition where
  reqline := str "GET / HTTP/1.1"
  pre := [str "Host: a.example"]
  name := str "if-None-Match"
  value := str " \"x\", W/\"40-c2f5f5f5f5f5f5f5\""
  post := [[], []]
  named := by decide
  text := textLine_of_clean (clean_iff.2 (by decide)) (by decide)
  header := hostLine_ne_nil
  breaks := by decide
  only := by decide

/-- A page in memory, asked for under that condition. -/
theorem conditional_agrees_page :
    let fs : FileSys := ⟨fun _ => none, fun _ => none, fun _ => none⟩
    let vhosts := fileTable (str "a.example") (fileSite noCoding (pageKey (str "/")) longPage)
    let g := handleRequest fs listedTags.plain vhosts true false none
    let r := handleRequest fs listedTags.conditional vhosts true false none
    ∃ etag, Response.valuesOf (str "etag") g.out = [str "\"" ++ etag ++ str "\""] ∧
      (statusOf r.out = str "304" ↔ inmMatches listedTags.field etag = true) := by
  intro fs vhosts g r
  have hread : (readRequest listedTags.plain).toOption.any (fun req =>
      req.method == str "GET" && req.target == str "/" && req.fields.hostHdr == str "a.example") = true := by decide +kernel
  obtain ⟨req, hreq, hget⟩ := ok_of_any hread
  simp only [Bool.and_eq_true, beq_iff_eq] at hget
  obtain ⟨⟨hmethod, htarget⟩, hhost⟩ := hget
  have hkey : normalizeHost req.fields.hostHdr = str "a.example" := by
    rw [hhost]
    decide
  have hreached : Reached vhosts none listedTags.plain req (fileSite noCoding (pageKey (str "/")) longPage) (str "/") := by
    refine ⟨hreq, (fun _ h => by cases h), ?_, ?_, ?_, ?_⟩
    · rw [hkey]
      exact AList.lookup_insert _
    all_goals
      rw [htarget]
      decide
  have hfrom : FromEntry vhosts none false listedTags.plain req _ (str "/") _ :=
    ⟨hreached, by rw [Request.fetches, hmethod]; rfl, by decide, rfl, resolve_pageKey noCoding (str "/") longPage⟩
  have h200 : statusOf g.out = str "200" := by decide +kernel
  obtain ⟨etag, hetag, h304, -⟩ := conditional_agrees listedTags (by decide) fs vhosts
    (stocked_fileTable (str "a.example") noCoding (pageKey (str "/")) longPage) true false none req _ (str "/") _ hfrom h200
  exact ⟨etag, hetag, h304⟩

end BareServer
