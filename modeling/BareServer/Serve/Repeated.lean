/-
A list-valued line of a head cut in two. The options of two Connection lines add up, but of the other
two list fields the last line stands alone. So cutting a line leaves every reply as it is exactly where
a later line replaces it anyway, where no content is asked for, or where its last part negotiates like
the whole.
-/
import BareServer.Serve.Landing
import BareServer.Serve.Options

namespace BareServer

open BareServer.Lib

/-! ## The lines -/

/-- The fields whose value is a list. -/
def listNames : List Str := [str "accept-encoding", str "if-none-match", str "connection"]

/-- A head with a list-valued line before its blank one, and a comma in the value. -/
structure ListLine where
  reqline : Bytes
  pre : List Bytes
  name : Str
  first : Str
  second : Str
  post : List Bytes
  listed : ∃ n ∈ listNames, eqIgnoreCase name n = true
  colon : 58 ∉ name
  header : ∀ l ∈ pre, l ≠ []
  breaks : ∀ l ∈ reqline :: (pre ++ (name ++ 58 :: (first ++ 44 :: second)) :: post), 13 ∉ l

namespace ListLine

variable (l : ListLine)

/-- The lines after the request line. -/
def lines : List Bytes := l.pre ++ (l.name ++ 58 :: (l.first ++ 44 :: l.second)) :: l.post

/-- The same with the line cut at the comma. -/
def cutLines : List Bytes := l.pre ++ (l.name ++ 58 :: l.first) :: (l.name ++ 58 :: l.second) :: l.post

/-- The value of the line. -/
def joined : Str := trim (l.first ++ 44 :: l.second)

/-- The value of the second of the two lines. -/
def last : Str := trim l.second

def whole : Bytes := joinCrlf (l.reqline :: l.lines)

def cut : Bytes := joinCrlf (l.reqline :: l.cutLines)

end ListLine

/-- A line with a colon is read by what stands before and behind it. -/
theorem fieldOf_append {name v n w : Str} (hcolon : 58 ∉ name) (h : fieldOf (name ++ 58 :: v) = some (n, w)) :
    n = name ∧ w = trim v ∧ ∀ v, fieldOf (name ++ 58 :: v) = some (name, trim v) := by
  have hsep : str ":" = [58] := by decide
  have hblank : str " " = [32] ∧ str "\t" = [9] := by decide
  -- whether the line is folded shows in the name
  have hfolded : ∀ (v v' : Str) (b : UInt8), [b].isPrefixOf (name ++ 58 :: v) = [b].isPrefixOf (name ++ 58 :: v') := by
    intro v v' b
    cases name <;> simp only [List.nil_append, List.cons_append, List.isPrefixOf_cons_cons, List.isPrefixOf_nil_left]
  unfold fieldOf at h ⊢
  split at h
  · cases h
  rename_i hline
  rw [hsep, splitOnce_append hcolon] at h
  simp only at h
  split at h
  · cases h
  rename_i hname
  cases h
  refine ⟨rfl, rfl, fun v' => ?_⟩
  rw [hblank.1, hblank.2] at hline ⊢
  rw [hfolded v' v 32, hfolded v' v 9, if_neg hline, hsep, splitOnce_append hcolon]
  exact if_neg hname

/-- A list-valued line is taken, and touches neither the host nor the body. -/
theorem fieldLine_listed {f : Fields} {line name v : Str} (hn : ∃ n ∈ listNames, eqIgnoreCase name n = true)
    (hf : fieldOf line = some (name, v)) :
    ∃ f', fieldLine f line = some f' ∧ f'.hostSeen = f.hostSeen ∧ f'.hasBody = f.hasBody := by
  have hother : ∀ {b : Str}, (∀ n ∈ listNames, lower n ≠ lower b) → eqIgnoreCase name b = false := by
    intro b hb
    obtain ⟨n, hn, hname⟩ := hn
    exact eqIgnoreCase_other hname (hb n hn)
  have hhost := @hother (str "host") (by decide)
  have hlen := @hother (str "content-length") (by decide)
  have hte := @hother (str "transfer-encoding") (by decide)
  rw [fieldLine, hf]
  simp only [hhost, hlen, hte, Bool.false_eq_true, if_false]
  split
  · exact ⟨_, rfl, rfl, rfl⟩
  split
  · exact ⟨_, rfl, rfl, rfl⟩
  split
  · exact ⟨_, rfl, rfl, rfl⟩
  · exact ⟨_, rfl, rfl, rfl⟩

/-- A line taken is taken whatever was collected before, as long as a host was seen or not. -/
theorem fieldLine_frame {f g f' : Fields} {line : Str} (h : fieldLine f line = some f') (hs : g.hostSeen = f.hostSeen)
    (hb : g.hasBody = f.hasBody) : ∃ g', fieldLine g line = some g' ∧ g'.hostSeen = f'.hostSeen ∧ g'.hasBody = f'.hasBody := by
  unfold fieldLine at h ⊢
  cases hf : fieldOf line with
  | none => rw [hf] at h; cases h
  | some nv =>
    obtain ⟨name, value⟩ := nv
    rw [hf] at h
    simp only [hs] at h ⊢
    split at h
    · split at h
      · cases h
      · rename_i hhost hseen
        cases h
        exact ⟨{ g with hostSeen := true, hostHdr := value }, by rw [if_pos hhost, if_neg hseen], rfl, hb⟩
    rename_i hhost
    rw [if_neg hhost]
    split at h
    · rename_i hlen
      cases h
      refine ⟨_, if_pos hlen, ?_⟩
      split
      · exact ⟨rfl, rfl⟩
      · exact ⟨hs, hb⟩
    rename_i hlen
    rw [if_neg hlen]
    split at h
    · rename_i hte
      cases h
      exact ⟨_, if_pos hte, rfl, rfl⟩
    rename_i hte
    rw [if_neg hte]
    -- the other lines touch neither
    split at h
    · rename_i hconn
      cases h
      exact ⟨_, if_pos hconn, rfl, hb⟩
    rename_i hconn
    rw [if_neg hconn]
    split at h
    · rename_i hinm
      cases h
      exact ⟨_, if_pos hinm, rfl, hb⟩
    rename_i hinm
    rw [if_neg hinm]
    split at h
    · rename_i hae
      cases h
      exact ⟨_, if_pos hae, rfl, hb⟩
    · rename_i hae
      cases h
      exact ⟨_, if_neg hae, hs, hb⟩

theorem foldlM_frame {f g f' : Fields} {ls : List Str} (h : ls.foldlM fieldLine f = some f') (hs : g.hostSeen = f.hostSeen)
    (hb : g.hasBody = f.hasBody) :
    ∃ g', ls.foldlM fieldLine g = some g' ∧ g'.hostSeen = f'.hostSeen ∧ g'.hasBody = f'.hasBody := by
  induction ls generalizing f g with
  | nil =>
    cases h
    exact ⟨g, rfl, hs, hb⟩
  | cons l ls ih =>
    rw [List.foldlM_cons] at h
    obtain ⟨f1, h1, h2⟩ := Option.bind_eq_some_iff.1 h
    obtain ⟨g1, hg1, hs1, hb1⟩ := fieldLine_frame h1 hs hb
    obtain ⟨g', hg', hend⟩ := ih h2 hs1 hb1
    exact ⟨g', by rw [List.foldlM_cons, hg1]; exact hg', hend⟩

/-! ## What is read -/

/-- Options are told apart by their trimmed text. -/
theorem connectionOptions_map_trim (k : Bool) (toks : List Str) :
    connectionOptions k (toks.map trim) = connectionOptions k toks := by
  induction toks generalizing k with
  | nil => rfl
  | cons tok toks ih => rw [List.map_cons, connectionOptions_cons, connectionOptions_cons, isClose, isClose, isKeepAlive,
      isKeepAlive, trim_trim, ih]

/-- The options of a value are those of its two parts. -/
theorem connectionOptions_joined (k : Bool) (l : ListLine) :
    connectionOptions k (l.joined.splitOn 44) = connectionOptions k ((trim l.first).splitOn 44 ++ l.last.splitOn 44) := by
  have hgraph : isGraph 44 = true := by decide
  rw [← connectionOptions_map_trim, ListLine.joined, splitOn_trim hgraph, List.splitOn_append_cons_self, List.map_append,
    ← splitOn_trim hgraph l.first, ← splitOn_trim hgraph l.second, ← List.map_append, connectionOptions_map_trim]
  rfl

/-- A second line takes the place of the first, and a later one that of both. -/
theorem getLastD_cut {α : Type} (d x y z : α) (a c : List α) :
    (c ≠ [] → (a ++ ([y, z] ++ c)).getLastD d = (a ++ ([x] ++ c)).getLastD d) ∧
    (c = [] → (a ++ ([y, z] ++ c)).getLastD d = z ∧ (a ++ ([x] ++ c)).getLastD d = x) := by
  constructor
  · intro hc
    obtain ⟨c, b, rfl⟩ := (List.eq_nil_or_concat c).resolve_left hc
    simp only [List.concat_eq_append, getLastD_append]
    rfl
  · rintro rfl
    simp

theorem fieldValues_congr {n n' : Str} (h : eqIgnoreCase n n' = true) (ls : List Bytes) :
    fieldValues n ls = fieldValues n' ls := by
  unfold fieldValues eqIgnoreCase
  rw [show lower n = lower n' by simpa [eqIgnoreCase] using h]

namespace ListLine

variable {l : ListLine} {req req' : Request}

/-- A later line of the same name. -/
def Later (l : ListLine) : Prop := fieldValues l.name (heading l.post) ≠ []

/-- What the head and the cut one are read as: they differ at most in the named field, where no later line
replaces it. -/
structure Pair (l : ListLine) (req req' : Request) : Prop where
  method : req'.method = req.method
  target : req'.target = req.target
  hostHdr : req'.fields.hostHdr = req.fields.hostHdr
  keepAlive : req'.fields.keepAlive = req.fields.keepAlive
  acceptEnc : (eqIgnoreCase l.name (str "accept-encoding") = true → l.Later) → req'.fields.acceptEnc = req.fields.acceptEnc
  inm : (eqIgnoreCase l.name (str "if-none-match") = true → l.Later) → req'.fields.inm = req.fields.inm
  cutAcceptEnc : eqIgnoreCase l.name (str "accept-encoding") = true → ¬ l.Later →
    req.fields.acceptEnc = l.joined ∧ req'.fields.acceptEnc = l.last
  cutInm : eqIgnoreCase l.name (str "if-none-match") = true → ¬ l.Later →
    req.fields.inm = l.joined ∧ req'.fields.inm = l.last

theorem heading_lines (l : ListLine) :
    heading l.lines = l.pre ++ (l.name ++ 58 :: (l.first ++ 44 :: l.second)) :: heading l.post ∧
    heading l.cutLines = l.pre ++ (l.name ++ 58 :: l.first) :: (l.name ++ 58 :: l.second) :: heading l.post := by
  have hne : ∀ v : Str, l.name ++ 58 :: v ≠ [] := fun v => by simp
  have hheader : ∀ vs : List Str, ∀ x ∈ l.pre ++ vs.map (l.name ++ 58 :: ·), x ≠ [] := by
    intro vs x hx
    rcases List.mem_append.1 hx with hx | hx
    · exact l.header x hx
    · obtain ⟨v, -, rfl⟩ := List.mem_map.1 hx
      exact hne v
  have hwhole := heading_append (hheader [l.first ++ 44 :: l.second]) l.post
  have hcut := heading_append (hheader [l.first, l.second]) l.post
  rw [List.append_assoc, List.append_assoc] at hwhole hcut
  exact ⟨hwhole, hcut⟩

/-- The lines of both are lines of text. -/
theorem textLines (l : ListLine) (h : ∀ x ∈ l.reqline :: l.lines, TextLine x) : ∀ x ∈ l.reqline :: l.cutLines, TextLine x := by
  have hline : TextLine (l.name ++ 58 :: (l.first ++ 44 :: l.second)) := h _ (by simp [lines])
  have hutf8 := isUtf8_cut (by decide) hline.utf8
  have hparts := isUtf8_cut (by decide) hutf8.2
  have htext : ∀ v, isUtf8 v = true → v ⊆ l.first ++ 44 :: l.second → TextLine (l.name ++ 58 :: v) := by
    intro v hv hsub
    refine ⟨?_, fun b hb => hline.tabs b ?_⟩
    · rw [isUtf8_append hutf8.1]
      exact hv
    · rcases List.mem_append.1 hb with hb | hb
      · exact List.mem_append_left _ hb
      · exact List.mem_append_right _ (List.cons_subset_cons 58 hsub hb)
  intro x hx
  simp only [cutLines, List.mem_cons, List.mem_append] at hx
  rcases hx with rfl | hx | rfl | rfl | hx
  · exact h _ List.mem_cons_self
  · exact h _ (by simp [lines, hx])
  · exact htext _ hparts.1 (List.subset_append_left _ _)
  · exact htext _ hparts.2 fun b hb => by simp [hb]
  · exact h _ (by simp [lines, hx])

/-- The values of one name: those before the line, its own, and those after it. -/
theorem fieldValues_lines (hfield : ∀ v, fieldOf (l.name ++ 58 :: v) = some (l.name, trim v)) (n : Str) :
    fieldValues n (heading l.lines) = fieldValues n l.pre ++
      ((if eqIgnoreCase l.name n then [l.joined] else []) ++ fieldValues n (heading l.post)) ∧
    fieldValues n (heading l.cutLines) = fieldValues n l.pre ++
      ((if eqIgnoreCase l.name n then [trim l.first, l.last] else []) ++ fieldValues n (heading l.post)) := by
  have hloose := fun v => (fieldOf_some (hfield v)).2
  obtain ⟨hwhole, hcut⟩ := l.heading_lines
  rw [hwhole, hcut, fieldValues_append, fieldValues_append, fieldValues_cons (hloose _), fieldValues_cons (hloose _),
    fieldValues_cons (hloose _)]
  refine ⟨rfl, ?_⟩
  split <;> rfl

theorem pair_of_says (hfield : ∀ v, fieldOf (l.name ++ 58 :: v) = some (l.name, trim v)) {f : Fields}
    (h : Says f req.fields (heading l.lines)) (h' : Says f req'.fields (heading l.cutLines))
    (hmethod : req'.method = req.method) (htarget : req'.target = req.target) : l.Pair req req' := by
  have hvalues := fieldValues_lines hfield
  have hother : ∀ {n : Str}, ¬ eqIgnoreCase l.name n = true →
      fieldValues n (heading l.lines) = fieldValues n (heading l.cutLines) := by
    intro n hn
    rw [(hvalues n).1, (hvalues n).2, if_neg hn, if_neg hn]
  have hkept : ∀ {n : Str} (d : Str), (eqIgnoreCase l.name n = true → l.Later) →
      (fieldValues n (heading l.cutLines)).getLastD d = (fieldValues n (heading l.lines)).getLastD d := by
    intro n d hlater
    by_cases hn : eqIgnoreCase l.name n = true
    · rw [(hvalues n).1, (hvalues n).2, if_pos hn, if_pos hn]
      refine (getLastD_cut d _ _ _ _ _).1 ?_
      rw [← fieldValues_congr hn]
      exact hlater hn
    · rw [hother hn]
  have hlost : ∀ {n : Str} (d : Str), eqIgnoreCase l.name n = true → ¬ l.Later →
      (fieldValues n (heading l.lines)).getLastD d = l.joined ∧ (fieldValues n (heading l.cutLines)).getLastD d = l.last := by
    intro n d hn hlater
    rw [(hvalues n).1, (hvalues n).2, if_pos hn, if_pos hn]
    refine ((getLastD_cut d _ _ _ _ _).2 ?_).symm
    rw [← fieldValues_congr hn]
    exact not_not.1 hlater
  have hhost : ¬ eqIgnoreCase l.name (str "host") = true := by
    obtain ⟨n, hn, hname⟩ := l.listed
    have hne : ∀ n ∈ listNames, lower n ≠ lower (str "host") := by decide
    rw [eqIgnoreCase_other hname (hne n hn)]
    exact Bool.false_ne_true
  refine ⟨hmethod, htarget, ?_, ?_, fun hl => ?_, fun hl => ?_, fun hn hl => ?_, fun hn hl => ?_⟩
  · rw [h'.hostHdr, h.hostHdr, hother hhost]
  · rw [h'.keepAlive, h.keepAlive]
    by_cases hn : eqIgnoreCase l.name (str "connection") = true
    · rw [(hvalues _).1, (hvalues _).2, if_pos hn, if_pos hn]
      simp only [List.flatMap_append, List.flatMap_cons, List.flatMap_nil, List.append_nil, connectionOptions_append,
        connectionOptions_joined]
    · rw [hother hn]
  · rw [h'.acceptEnc, h.acceptEnc, hkept _ hl]
  · rw [h'.inm, h.inm, hkept _ hl]
  · rw [h'.acceptEnc, h.acceptEnc]
    exact hlost _ hn hl
  · rw [h'.inm, h.inm]
    exact hlost _ hn hl

/-- The cut head of an accepted one is accepted. -/
theorem read_cut (h : readRequest l.whole = .ok req) : ∃ req', readRequest l.cut = .ok req' ∧ l.Pair req req' := by
  obtain ⟨reqline, ls, hsplit, -, htext, hread⟩ := lines_of_readRequest h
  have hlines : splitCrlf l.whole = l.reqline :: l.lines := splitCrlf_joinCrlf (List.cons_ne_nil _ _) l.breaks
  obtain ⟨rfl, rfl⟩ := List.cons.inj (hlines.symm.trans hsplit)
  -- the pass over the whole head, up to the line, over it and behind it
  have hfields := hread.fields
  obtain ⟨hwhole, hcut⟩ := l.heading_lines
  have hsays := says_lines (fieldLines_heading _ _ ▸ hfields)
  rw [fieldLines_heading, hwhole, List.foldlM_append] at hfields
  obtain ⟨f1, hpre, hfields⟩ := Option.bind_eq_some_iff.1 hfields
  rw [List.foldlM_cons] at hfields
  obtain ⟨f2, hline, hpost⟩ := Option.bind_eq_some_iff.1 hfields
  obtain ⟨n, w, hfield, -⟩ := fieldLine_some hline
  obtain ⟨rfl, -, hfield⟩ := fieldOf_append l.colon hfield
  -- the same with the two lines
  obtain ⟨f2', hline', hseen, hbody⟩ := @fieldLine_listed f1 _ _ _ l.listed (hfield (l.first ++ 44 :: l.second))
  cases hline.symm.trans hline'
  obtain ⟨g1, hg1, hseen1, hbody1⟩ := @fieldLine_listed f1 _ _ _ l.listed (hfield l.first)
  obtain ⟨g2, hg2, hseen2, hbody2⟩ := @fieldLine_listed g1 _ _ _ l.listed (hfield l.second)
  obtain ⟨g, hg, -, hbodyg⟩ := foldlM_frame hpost (hseen2.trans (hseen1.trans hseen.symm)) (hbody2.trans (hbody1.trans hbody.symm))
  have hcutFields : (heading l.cutLines).foldlM fieldLine ⟨req.version == str "HTTP/1.1", [], [], [], false, false⟩ = some g := by
    rw [hcut, List.foldlM_append, hpre]
    show List.foldlM fieldLine f1 _ = some g
    rw [List.foldlM_cons, hg1]
    show List.foldlM fieldLine g1 _ = some g
    rw [List.foldlM_cons, hg2]
    exact hg
  refine ⟨{ req with fields := g }, (readRequest_joinCrlf (textLines l htext) _).2 ?_,
    pair_of_says hfield hsays (says_lines hcutFields) rfl rfl⟩
  exact ⟨hread.line, hread.method_ne, hread.target_ne, hread.version, hread.target, by rw [fieldLines_heading]; exact hcutFields,
    hbodyg.trans hread.noBody⟩

end ListLine

/-! ## What is answered -/

/-- A request that content may answer, under this path. -/
structure Request.Wants (req : Request) (path : Str) : Prop where
  fetches : req.fetches = true
  slash : str "/" <+: targetPath req.target
  short : (targetPath req.target).length < maxPathLen
  decoded : (percentDecode (targetPath req.target)).bind fromUtf8 = some path
  acme : ¬ acmePrefix <+: path

/-- A table whose sites hold entries of files. -/
def Stocked (vhosts : Vhosts) : Prop := ∀ host site, vhosts.sites.lookup host = some site → ∃ h, SafeSite h site

/-- Two requests of a site that differ in what they accept and hold get one reply, if they do where content is
served. -/
theorem handleSite_congr {req req' : Request} (hmethod : req'.method = req.method) (htarget : req'.target = req.target)
    {fs : FileSys} {site : Site} {vhosts : Vhosts} {hostKey : Str} {keepAlive redirectHttps : Bool}
    (hserve : ∀ path e, req.Wants path → resolve site.cache.map path = some (.entry e) →
      serveCached fs e req'.fields.acceptEnc req'.fields.inm keepAlive req.isHead site.policy =
        serveCached fs e req.fields.acceptEnc req.fields.inm keepAlive req.isHead site.policy) :
    handleSite fs site vhosts req' hostKey keepAlive redirectHttps = handleSite fs site vhosts req hostKey keepAlive redirectHttps := by
  have hhead : req'.isHead = req.isHead := by rw [Request.isHead, Request.isHead, hmethod]
  unfold handleSite
  simp only [hmethod, htarget, hhead]
  split
  · rfl
  rename_i hfetch
  split
  · rfl
  rename_i hpath
  cases hdec : (percentDecode (targetPath req.target)).bind fromUtf8 with
  | none => rfl
  | some path =>
    simp only
    split
    · rfl
    unfold serveContent
    simp only [hhead]
    split
    · rfl
    rename_i hacme
    cases hres : resolve site.cache.map path with
    | none => rfl
    | some r =>
      cases r with
      | dirIndex => rfl
      | entry e =>
        simp only [Bool.or_eq_true, not_or, Bool.not_eq_true', Bool.not_eq_false, decide_eq_true_eq, not_le] at hpath
        refine hserve path e ⟨?_, List.isPrefixOf_iff_prefix.1 hpath.1.2, hpath.2, hdec,
          mt List.isPrefixOf_iff_prefix.2 hacme⟩ hres
        simpa [Request.fetches, or_iff_not_imp_left] using hfetch

theorem handleRequest_congr {head head' : Bytes} {req req' : Request} (hread : readRequest head = .ok req)
    (hread' : readRequest head' = .ok req') (hmethod : req'.method = req.method) (htarget : req'.target = req.target)
    (hhost : req'.fields.hostHdr = req.fields.hostHdr) (hka : req'.fields.keepAlive = req.fields.keepAlive)
    {fs : FileSys} {vhosts : Vhosts} {wantKa redirectHttps : Bool} {sni : Option Str}
    (hserve : ∀ site path e, vhosts.sites.lookup (normalizeHost req.fields.hostHdr) = some site → req.Wants path →
      resolve site.cache.map path = some (.entry e) → ∀ keepAlive,
        serveCached fs e req'.fields.acceptEnc req'.fields.inm keepAlive req.isHead site.policy =
          serveCached fs e req.fields.acceptEnc req.fields.inm keepAlive req.isHead site.policy) :
    handleRequest fs head' vhosts wantKa redirectHttps sni = handleRequest fs head vhosts wantKa redirectHttps sni := by
  have hhead : req'.isHead = req.isHead := by rw [Request.isHead, Request.isHead, hmethod]
  unfold handleRequest
  rw [hread, hread']
  simp only [hka]
  unfold handleAccepted
  simp only
  rw [hhost, hhead]
  split
  · rfl
  cases hsite : vhosts.sites.lookup (normalizeHost req.fields.hostHdr) with
  | none => rfl
  | some site => exact handleSite_congr hmethod htarget fun path e hw he => hserve site path e hsite hw he _

/-- An entry of a file answers alike what accepts the same codings and holds the same bodies. -/
theorem serveCached_congr {acceptEnc acceptEnc' inm inm' : Str}
    (hacc : ∀ token ∈ [str "br", str "gzip"], acceptsEncoding acceptEnc' token = acceptsEncoding acceptEnc token)
    (hinm : ∀ body, notModified inm' (etagFor body) = notModified inm (etagFor body)) {h : HeaderConfig} {site : Site}
    (hs : SafeSite h site) {decoded : Str} {e : Cached} (he : resolve site.cache.map decoded = some (.entry e)) (fs : FileSys)
    (keepAlive isHead : Bool) :
    serveCached fs e acceptEnc' inm' keepAlive isHead site.policy = serveCached fs e acceptEnc inm keepAlive isHead site.policy := by
  have hpick : ∀ {α : Type} (br gzip : Option α) (identity : α),
      pickVariant acceptEnc' br gzip identity = pickVariant acceptEnc br gzip identity := by
    intro α br gzip identity
    rw [pickVariant, pickVariant, hacc _ List.mem_cons_self, hacc _ (List.mem_cons_of_mem _ List.mem_cons_self)]
  obtain ⟨url, -, hlookup⟩ := List.exists_of_findSome?_eq_some (resolve_entry he)
  obtain ⟨c, data, rfl | ⟨bd, rfl⟩⟩ := hs.entries url e hlookup
  · rw [serveCached, serveCached, serveMem, serveMem, hpick, makeCached_pick]
    cases hnm : notModified inm (etagFor (chosenBody c (mimeFor url) data site.policy acceptEnc).1) <;>
      simp only [buildVariant, (hinm _).trans hnm, hnm]
  · obtain ⟨ns, hchosen, -⟩ := diskEntry_pick c (mimeFor url) site.policy url data bd acceptEnc
    rw [serveCached, serveCached, serveDisk, serveDisk, hpick, hchosen]
    cases hnm : notModified inm (etagFor (chosenBody c (mimeFor url) data site.policy acceptEnc).1) <;>
      simp only [diskVariant, (hinm _).trans hnm, hnm]

/-! ## Sites that tell the fields apart -/

/-- The key of a page that a path leads to. -/
def pageKey (path : Str) : Str := if (str "/").isSuffixOf path then path ++ str "index.html" else path ++ str ".html"

theorem mimeFor_pageKey (path : Str) : mimeFor (pageKey path) = str "text/html; charset=utf-8" := by
  have hext : ∀ stem : Str, mimeFor (stem ++ 46 :: str "html") = str "text/html; charset=utf-8" := by
    intro stem
    have hdot : 46 ∉ str "html" := by decide
    have hname : (lower (str "html") == str "html") = true := by decide
    unfold mimeFor
    rw [rsplitOnce_append hdot]
    simp only [hname, Bool.true_or, if_true]
  have htexts : str "index.html" = str "index" ++ 46 :: str "html" ∧ str ".html" = 46 :: str "html" := by decide
  unfold pageKey
  split
  · rw [htexts.1, ← List.append_assoc]
    exact hext _
  · rw [htexts.2]
    exact hext _

theorem resolve_pageKey (c : Compressors) (path : Str) (data : Bytes) :
    resolve (fileSite c (pageKey path) data).cache.map path =
      some (.entry (.mem (makeCached c (pageKey path) (mimeFor (pageKey path)) data memoryPolicy))) := by
  cases hslash : (str "/").isSuffixOf path with
  | true =>
    have hkey : pageKey path = path ++ str "index.html" := if_pos hslash
    rw [resolve, hslash, if_pos rfl, lookup_fileSite, hkey, if_pos rfl]
  | false =>
    have hkey : pageKey path = path ++ str ".html" := if_neg (by rw [hslash]; exact Bool.false_ne_true)
    have hne : path ≠ path ++ str ".html" := fun h => by
      have hlen := congrArg List.length h
      rw [List.length_append, show (str ".html").length = 5 by decide] at hlen
      omega
    rw [resolve, hslash, if_neg Bool.false_ne_true, lookup_fileSite, lookup_fileSite, hkey, if_neg hne, if_pos rfl]

/-- Compressors that make one coding smaller than the page, and ones that make none. -/
def onlyCoding (token : Str) : Compressors :=
  ⟨fun d _ => if token = str "gzip" then [] else d, fun d _ => if token = str "br" then [] else d⟩

def noCoding : Compressors := ⟨fun d _ => d, fun d _ => d⟩

/-- A page long enough to be compressed. -/
def longPage : Bytes := List.replicate 64 97

section

variable (path acceptEnc : Str)

theorem chosenBody_onlyCoding {token : Str} (ht : token ∈ [str "br", str "gzip"]) :
    (chosenBody (onlyCoding token) (mimeFor (pageKey path)) longPage memoryPolicy acceptEnc).2 =
      if acceptsEncoding acceptEnc token then some token else none := by
  have hvariants : compressVariants (onlyCoding (str "br")) (str "text/html; charset=utf-8") longPage memoryPolicy =
        (none, some []) ∧
      compressVariants (onlyCoding (str "gzip")) (str "text/html; charset=utf-8") longPage memoryPolicy = (some [], none) := by
    decide +kernel
  simp only [List.mem_cons, List.not_mem_nil, or_false] at ht
  rcases ht with rfl | rfl
  · rw [mimeFor_pageKey, chosenBody, hvariants.1, pickVariant]
    cases acceptsEncoding acceptEnc (str "br") <;> rfl
  · rw [mimeFor_pageKey, chosenBody, hvariants.2, pickVariant]
    cases acceptsEncoding acceptEnc (str "gzip") <;> rfl

theorem chosenBody_noCoding (mime : Str) (data : Bytes) (p : Policy) : chosenBody noCoding mime data p acceptEnc = (data, none) := by
  have hvariants : compressVariants noCoding mime data p = (none, none) := by
    unfold compressVariants noCoding
    split
    · rfl
    · simp only [Prod.mk.injEq]
      constructor <;> split <;> simp
  rw [chosenBody, hvariants]
  rfl

end

section

variable {head : Bytes} {req : Request} {path : Str}

theorem safeSite_fileSite (c : Compressors) (key : Str) (data : Bytes) : SafeSite .default (fileSite c key data) := by
  have hs := servable_fileSite c key data ⟨fun _ => none, fun _ => none, fun _ => none⟩
  refine ⟨clean_nil, hs.policy, Redirects.clean_default, fun url e he => ?_⟩
  obtain ⟨c, data, h | ⟨bd, h, -⟩⟩ := hs.entries url e he
  · exact ⟨c, data, .inl h⟩
  · exact ⟨c, data, .inr ⟨bd, h⟩⟩

theorem stocked_fileTable (host : Str) (c : Compressors) (key : Str) (data : Bytes) :
    Stocked (fileTable host (fileSite c key data)) := by
  intro host' site hsite
  rw [lookup_fileTable] at hsite
  split at hsite
  · cases hsite
    exact ⟨_, safeSite_fileSite c key data⟩
  · cases hsite

/-- A request that wants content gets the page of its path, on a site that has only that. -/
theorem Request.Wants.fields (hw : req.Wants path) (hread : readRequest head = .ok req) (fs : FileSys) (c : Compressors)
    (data : Bytes) :
    FileFields c data memoryPolicy (pageKey path) req.fields.acceptEnc req.fields.inm req.fields.keepAlive
      (handleRequest fs head (fileTable (normalizeHost req.fields.hostHdr) (fileSite c (pageKey path) data)) true false none).out := by
  have hr : Reached (fileTable (normalizeHost req.fields.hostHdr) (fileSite c (pageKey path) data)) none head req
      (fileSite c (pageKey path) data) path :=
    ⟨hread, (fun _ h => by cases h), AList.lookup_insert _, hw.slash, hw.short, hw.decoded⟩
  have hnofold : (fileSite c (pageKey path) data).canonicalUrls = true → canonicalForm path = none := fun h => by cases h
  have hp : PolicyOf .default memoryPolicy := policyOf_withHeaders _ _ _ _
  have hreply := @Reached.content fs _ _ _ _ _ _ false hr hw.fetches hw.acme rfl hnofold rfl true
  rw [resolve_pageKey, Bool.and_true] at hreply
  rw [hreply.trans (serveMem_makeCached hp rfl data _ _ _ _)]
  exact fileResponse_fields clean_nil hp

end

/-! ## Cutting the line -/

/-- The same bytes and the same result. -/
def SameReply (r r' : Reply) : Prop := r.out = r'.out ∧ r.result = r'.result

namespace ListLine

variable {l : ListLine} {req : Request}

/-- The last part of the value negotiates like the whole. -/
def Negotiates (l : ListLine) : Prop :=
  (eqIgnoreCase l.name (str "accept-encoding") = true →
    ∀ token ∈ [str "br", str "gzip"], acceptsEncoding l.last token = acceptsEncoding l.joined token) ∧
  (eqIgnoreCase l.name (str "if-none-match") = true →
    ∀ body, notModified l.last (etagFor body) = notModified l.joined (etagFor body))

/-- Where nothing replaces the line and its last part negotiates otherwise, some site answers otherwise. -/
theorem exists_otherwise (h : readRequest l.whole = .ok req) (hlater : ¬ l.Later) {path : Str} (hw : req.Wants path)
    (hnot : ¬ l.Negotiates) (fs : FileSys) : ∃ vhosts, Stocked vhosts ∧
      ¬ SameReply (handleRequest fs l.cut vhosts true false none) (handleRequest fs l.whole vhosts true false none) := by
  obtain ⟨req', h', hpair⟩ := read_cut h
  have hw' : req'.Wants path := by
    obtain ⟨hfetch, hslash, hshort, hdec, hacme⟩ := hw
    rw [← hpair.target] at hslash hshort hdec
    exact ⟨by rw [Request.fetches, Request.isHead, hpair.method]; exact hfetch, hslash, hshort, hdec, hacme⟩
  have hanswers : ∀ c data, ∃ vhosts, Stocked vhosts ∧
      FileFields c data memoryPolicy (pageKey path) req.fields.acceptEnc req.fields.inm req.fields.keepAlive
        (handleRequest fs l.whole vhosts true false none).out ∧
      FileFields c data memoryPolicy (pageKey path) req'.fields.acceptEnc req'.fields.inm req'.fields.keepAlive
        (handleRequest fs l.cut vhosts true false none).out := by
    intro c data
    refine ⟨_, stocked_fileTable (normalizeHost req.fields.hostHdr) c (pageKey path) data, hw.fields h fs c data, ?_⟩
    rw [← hpair.hostHdr]
    exact hw'.fields h' fs c data
  rw [Negotiates, not_and_or] at hnot
  rcases hnot with hnot | hnot
  · simp only [Classical.not_imp, not_forall] at hnot
    obtain ⟨hn, token, ht, hne⟩ := hnot
    obtain ⟨hwhole, hcut⟩ := hpair.cutAcceptEnc hn hlater
    obtain ⟨vhosts, hstocked, hf, hf'⟩ := hanswers (onlyCoding token) longPage
    refine ⟨vhosts, hstocked, fun hsame => hne ?_⟩
    have hcoding := hf'.coding
    rw [hsame.1, hf.coding, chosenBody_onlyCoding _ _ ht, chosenBody_onlyCoding _ _ ht, hwhole, hcut] at hcoding
    cases hl : acceptsEncoding l.last token <;> cases hj : acceptsEncoding l.joined token <;> simp [hl, hj] at hcoding ⊢
  · simp only [Classical.not_imp, not_forall] at hnot
    obtain ⟨hn, body, hne⟩ := hnot
    obtain ⟨hwhole, hcut⟩ := hpair.cutInm hn hlater
    obtain ⟨vhosts, hstocked, hf, hf'⟩ := hanswers noCoding body
    refine ⟨vhosts, hstocked, fun hsame => hne ?_⟩
    -- a 304 has no length
    have hlength := hf'.length
    rw [hsame.1, hf.length, chosenBody_noCoding, chosenBody_noCoding, hwhole, hcut] at hlength
    cases hl : notModified l.last (etagFor body) <;> cases hj : notModified l.joined (etagFor body) <;>
      simp [hl, hj] at hlength ⊢

/-- Cutting a list-valued line in two changes no reply exactly when a later line replaces it, when the request
does not get to content, or when its last part negotiates like the whole. -/
theorem cut_same_iff (l : ListLine) {req : Request} (h : readRequest l.whole = .ok req) :
    (∀ fs vhosts, Stocked vhosts → ∀ wantKa redirectHttps sni,
      SameReply (handleRequest fs l.cut vhosts wantKa redirectHttps sni)
        (handleRequest fs l.whole vhosts wantKa redirectHttps sni)) ↔
      l.Later ∨ (∀ path, ¬ req.Wants path) ∨ l.Negotiates := by
  constructor
  · intro hsame
    by_contra hnot
    simp only [not_or, not_forall, not_not] at hnot
    obtain ⟨hlater, ⟨path, hw⟩, hneg⟩ := hnot
    obtain ⟨vhosts, hstocked, hother⟩ := exists_otherwise h hlater hw hneg ⟨fun _ => none, fun _ => none, fun _ => none⟩
    exact hother (hsame _ vhosts hstocked true false none)
  · intro hkept fs vhosts hstocked wantKa redirectHttps sni
    obtain ⟨req', h', hpair⟩ := read_cut h
    have hreply : handleRequest fs l.cut vhosts wantKa redirectHttps sni =
        handleRequest fs l.whole vhosts wantKa redirectHttps sni := by
      refine handleRequest_congr h h' hpair.method hpair.target hpair.hostHdr hpair.keepAlive
        fun site path e hsite hw he keepAlive => ?_
      by_cases hlater : l.Later
      · rw [hpair.acceptEnc fun _ => hlater, hpair.inm fun _ => hlater]
      · obtain ⟨hacc, hinm⟩ := (hkept.resolve_left hlater).resolve_left fun hnone => hnone path hw
        obtain ⟨hdr, hs⟩ := hstocked _ site hsite
        refine serveCached_congr (fun token ht => ?_) (fun body => ?_) hs he fs keepAlive req.isHead
        · by_cases hn : eqIgnoreCase l.name (str "accept-encoding") = true
          · rw [(hpair.cutAcceptEnc hn hlater).1, (hpair.cutAcceptEnc hn hlater).2]
            exact hacc hn token ht
          · rw [hpair.acceptEnc fun h => absurd h hn]
        · by_cases hn : eqIgnoreCase l.name (str "if-none-match") = true
          · rw [(hpair.cutInm hn hlater).1, (hpair.cutInm hn hlater).2]
            exact hinm hn body
          · rw [hpair.inm fun h => absurd h hn]
    rw [hreply]
    exact ⟨rfl, rfl⟩

end ListLine

/-- A refusal of brotli, and everything else welcome. -/
def refusalLine : ListLine where
  reqline := str "GET / HTTP/1.1"
  pre := [str "Host: a.example"]
  name := str "Accept-Encoding"
  first := str " br;q=0"
  second := str " *"
  post := [[], []]
  listed := by decide
  colon := by decide
  header := by decide
  breaks := by decide

/-- Two connection options. -/
def optionsLine : ListLine :=
  { refusalLine with
    name := str "Connection", first := str " close", second := str " TE", listed := by decide, colon := by decide,
    breaks := by decide }

/-- The options of two lines are those of one. -/
theorem cut_same_options : ∃ req, readRequest optionsLine.whole = .ok req ∧
    ∀ fs vhosts, Stocked vhosts → ∀ wantKa redirectHttps sni,
      SameReply (handleRequest fs optionsLine.cut vhosts wantKa redirectHttps sni)
        (handleRequest fs optionsLine.whole vhosts wantKa redirectHttps sni) := by
  have hread : (readRequest optionsLine.whole).toOption.any (fun _ => true) = true := by decide +kernel
  have hname : eqIgnoreCase optionsLine.name (str "accept-encoding") = false ∧
      eqIgnoreCase optionsLine.name (str "if-none-match") = false := by decide
  obtain ⟨req, hreq, -⟩ := ok_of_any hread
  refine ⟨req, hreq, (optionsLine.cut_same_iff hreq).2 (.inr (.inr ⟨fun h => ?_, fun h => ?_⟩))⟩
  · rw [hname.1] at h
    cases h
  · rw [hname.2] at h
    cases h

/-- The refusal of brotli is lost with the first of two lines. -/
theorem cut_refusal_lost : ∃ req, readRequest refusalLine.whole = .ok req ∧ ∃ fs vhosts, Stocked vhosts ∧
    ¬ SameReply (handleRequest fs refusalLine.cut vhosts true false none)
      (handleRequest fs refusalLine.whole vhosts true false none) := by
  have hread : (readRequest refusalLine.whole).toOption.any (fun req =>
      req.method == str "GET" && req.target == str "/") = true := by decide +kernel
  obtain ⟨req, hreq, hget⟩ := ok_of_any hread
  simp only [Bool.and_eq_true, beq_iff_eq] at hget
  have hw : req.Wants (str "/") := by
    refine ⟨by rw [Request.fetches, hget.1]; rfl, ?_, ?_, ?_, by decide⟩ <;> rw [hget.2] <;> decide
  have hlater : ¬ refusalLine.Later := by
    rw [ListLine.Later, not_not]
    decide +kernel
  have haccepts : acceptsEncoding refusalLine.last (str "br") ≠ acceptsEncoding refusalLine.joined (str "br") := by
    decide +kernel
  have hnot : ¬ refusalLine.Negotiates := fun h => haccepts (h.1 (by decide) _ List.mem_cons_self)
  obtain ⟨vhosts, hother⟩ := ListLine.exists_otherwise hreq hlater hw hnot ⟨fun _ => none, fun _ => none, fun _ => none⟩
  exact ⟨req, hreq, _, vhosts, hother⟩

end BareServer
