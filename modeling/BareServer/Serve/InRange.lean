/-
No request makes the server panic: every index and every slice evaluated for it is in range, and
every slice of a text is cut between two characters.
-/
import BareServer.Serve.Checked
import BareServer.Serve.Landing
import BareServer.Watch.Steps

namespace BareServer

open BareServer.Lib

/-! ## Tables -/

/-- Both forms of a status response mark where their body starts within their buffer. -/
def StatusResponse.Marked (r : StatusResponse) : Prop :=
  r.ka.headerLen ≤ r.ka.full.length ∧ r.close.headerLen ≤ r.close.full.length

structure ErrorPages.Marked (e : ErrorPages) : Prop where
  badRequest : e.badRequest.Marked
  notFound : e.notFound.Marked
  methodNotAllowed : e.methodNotAllowed.Marked
  internalError : e.internalError.Marked

def Variant.Marked (v : Variant) : Prop := v.headerLen ≤ v.fullKa.length

structure MemEntry.Marked (m : MemEntry) : Prop where
  identity : m.identity.Marked
  gzip : ∀ v, m.gzip = some v → v.Marked
  br : ∀ v, m.br = some v → v.Marked

structure Site.Marked (s : Site) : Prop where
  errors : s.policy.errors.Marked
  entries : ∀ url m, s.cache.map.lookup url = some (.mem m) → m.Marked

/-- A table whose prebuilt responses all do. -/
structure Vhosts.Marked (v : Vhosts) : Prop where
  errors : v.errors.Marked
  sites : ∀ host site, v.sites.lookup host = some site → site.Marked

theorem statusResponse_marked (code : Nat) (reason securityHeaders : Str) :
    (buildStatus code reason securityHeaders).Marked := by
  constructor <;> simp [buildStatus]

theorem errorPages_marked (securityHeaders : Str) : (ErrorPages.new securityHeaders).Marked :=
  ⟨statusResponse_marked .., statusResponse_marked .., statusResponse_marked .., statusResponse_marked ..⟩

theorem variant_marked (mime : Str) (body : Bytes) (encoding : Option Str) (vary : Bool) (cacheControl sh : Str) :
    (buildVariant mime body encoding vary cacheControl sh).Marked := by
  simp [Variant.Marked, buildVariant]

theorem makeCached_marked (c : Compressors) (url mime : Str) (data : Bytes) (p : Policy) :
    (makeCached c url mime data p).Marked := by
  refine ⟨variant_marked .., fun v hv => ?_, fun v hv => ?_⟩
  · obtain ⟨g, -, rfl⟩ := Option.map_eq_some_iff.1 hv
    exact variant_marked ..
  · obtain ⟨b, -, rfl⟩ := Option.map_eq_some_iff.1 hv
    exact variant_marked ..

/-- Reads fit the buffer they read into. -/
def FileSys.ReadsWithin (fs : FileSys) (n : Nat) : Prop :=
  ∀ path reads, fs.snapshot path = some reads → ∀ chunk, some chunk ∈ reads → chunk.length ≤ n

namespace Checked

/-! ## Framing -/

/-- One turn of the loop, at a byte that begins no line break. -/
theorem wellFormedFrom_byte {head t : Bytes} {i : Nat} {c : UInt8} (hrest : head.drop i = c :: t)
    (hcrlf : ∀ t', c = 13 → t = 10 :: t' → False) : wellFormedFrom head i =
      if c == 13 || c == 10 || c == 0x7F || (c < 0x20 && c != 9) then .ok false else wellFormedFrom head (i + 1) := by
  obtain ⟨hlt, hc, hnext⟩ := drop_cons hrest
  rw [wellFormedFrom, if_pos hlt, index_ok hc, ok_bind]
  by_cases h13 : c = 13
  · have hbare : head[i + 1]? ≠ some 10 := by
      intro hlf
      rw [← List.head?_drop, hnext, List.head?_eq_some_iff] at hlf
      obtain ⟨t', ht⟩ := hlf
      exact hcrlf t' h13 ht
    simp [h13, hbare]
  · by_cases h10 : c = 10 <;> by_cases h7F : c = 0x7F <;> simp [h13, h10, h7F]

/-- The loop reads what is left of the head at its index. -/
theorem wellFormedFrom_ok {head rest : Bytes} {i : Nat} (hrest : head.drop i = rest) :
    wellFormedFrom head i = .ok (BareServer.wellFormedHead rest) := by
  induction rest using BareServer.wellFormedHead.induct generalizing i with
  | case1 =>
    rw [wellFormedFrom, if_neg (Nat.not_lt.2 (le_of_drop_nil hrest))]
    rfl
  | case2 t ih =>
    obtain ⟨hlt, hc, hnext⟩ := drop_cons hrest
    obtain ⟨-, hlf, hnext⟩ := drop_cons hnext
    rw [wellFormedFrom, if_pos hlt, index_ok hc, ok_bind, hlf]
    exact ih hnext
  | case3 c t hcrlf hbad =>
    rw [wellFormedFrom_byte hrest hcrlf, BareServer.wellFormedHead.eq_3 _ _ hcrlf, if_pos hbad, if_pos hbad]
  | case4 c t hcrlf hfine ih =>
    rw [wellFormedFrom_byte hrest hcrlf, BareServer.wellFormedHead.eq_3 _ _ hcrlf, if_neg hfine, if_neg hfine]
    exact ih (drop_cons hrest).2.2

theorem readRequest_ok (head : Bytes) : readRequest head = .ok (BareServer.readRequest head) := by
  unfold readRequest
  cases htext : fromUtf8 head with
  | none => simp only [BareServer.readRequest, htext, pure_eq_ok]
  | some text =>
    rw [wellFormedHead, wellFormedFrom_ok (List.drop_zero ..), ok_bind]
    cases hwf : BareServer.wellFormedHead head with
    | false => simp [BareServer.readRequest, htext, hwf]
    | true => rfl

/-! ## Negotiation -/

/-- A parameter is cut behind the two bytes that were just found. -/
theorem paramsAcceptable_ok (acceptable : Bool) (params : List Str) :
    paramsAcceptable acceptable params = .ok (BareServer.paramsAcceptable acceptable params) := by
  induction params generalizing acceptable with
  | nil => rfl
  | cons param rest ih =>
    unfold paramsAcceptable BareServer.paramsAcceptable
    simp only
    split
    · rename_i hq
      cases hget : getTo (trim param) 2 with
      | none =>
        rw [hget] at hq
        cases hq
      | some p =>
        rw [textFrom_ok (isCharBoundary_of_getTo hget), ok_bind]
        exact ih _
    · exact ih _

theorem acceptsFrom_ok (token : Str) (wildcard : Option Bool) (parts : List Str) :
    acceptsFrom token wildcard parts = .ok (BareServer.acceptsFrom token wildcard parts) := by
  induction parts generalizing wildcard with
  | nil => rfl
  | cons part rest ih =>
    unfold acceptsFrom BareServer.acceptsFrom
    simp only [paramsAcceptable_ok, ok_bind, ih, pure_eq_ok]
    split <;> rfl

theorem acceptsEncoding_ok (field token : Str) :
    acceptsEncoding field token = .ok (BareServer.acceptsEncoding field token) := acceptsFrom_ok _ _ _

theorem filterM_ok {α : Type} (o : Option α) (p : Bool) :
    (o.filterM fun _ => (.ok p : Except Panic Bool)) = .ok (o.filter fun _ => p) := by
  cases o <;> cases p <;> rfl

theorem pickVariant_ok {α : Type} (acceptEnc : Str) (br gzip : Option α) (identity : α) :
    pickVariant acceptEnc br gzip identity = .ok (BareServer.pickVariant acceptEnc br gzip identity) := by
  unfold pickVariant BareServer.pickVariant
  simp only [acceptsEncoding_ok, filterM_ok, ok_bind]
  cases br.filter fun _ => BareServer.acceptsEncoding acceptEnc (str "br") with
  | some v => rfl
  | none =>
    cases gzip.filter fun _ => BareServer.acceptsEncoding acceptEnc (str "gzip") with
    | some v => rfl
    | none => rfl

/-! ## Percent codec -/

/-- One turn of the loop, at a whole escape. -/
theorem percentDecodeFrom_escape {b t out : Bytes} {i : Nat} {hi lo : UInt8} (hrest : b.drop i = 37 :: hi :: lo :: t) :
    percentDecodeFrom b i out =
      match hexval hi, hexval lo with
      | some h, some l =>
        if isControl (h <<< 4 ||| l) then .ok none else percentDecodeFrom b (i + 3) (out ++ [h <<< 4 ||| l])
      | _, _ => .ok none := by
  obtain ⟨hlt, hc, hnext⟩ := drop_cons hrest
  obtain ⟨-, hhi, hnext⟩ := drop_cons hnext
  obtain ⟨hlt2, hlo, -⟩ := drop_cons hnext
  rw [percentDecodeFrom, if_pos hlt, index_ok hc, ok_bind, if_pos (beq_self_eq_true _), if_neg (Nat.not_le.2 hlt2), index_ok hhi,
    ok_bind, index_ok hlo]
  cases hexval hi with
  | none => rfl
  | some h =>
    simp only [ok_bind]
    cases hexval lo <;> rfl

/-- One turn of the loop, at a byte that begins no escape. -/
theorem percentDecodeFrom_byte {b t out : Bytes} {i : Nat} {c : UInt8} (hrest : b.drop i = c :: t)
    (hesc : ∀ hi lo t', c = 37 → t = hi :: lo :: t' → False) : percentDecodeFrom b i out =
      if c == 37 || isControl c then .ok none else percentDecodeFrom b (i + 1) (out ++ [c]) := by
  obtain ⟨hlt, hc, -⟩ := drop_cons hrest
  rw [percentDecodeFrom, if_pos hlt, index_ok hc, ok_bind]
  by_cases h37 : c = 37
  · have hshort : b.length ≤ i + 2 := by
      have hlen := congrArg List.length hrest
      rw [List.length_drop, List.length_cons] at hlen
      match t with
      | [] | [_] =>
        simp only [List.length_nil, List.length_cons] at hlen
        omega
      | hi :: lo :: t' => exact (hesc hi lo t' h37 rfl).elim
    simp [h37, hshort]
  · simp [h37]

/-- The loop decodes what is left of the text at its index. -/
theorem percentDecodeFrom_ok {b rest out : Bytes} {i : Nat} (hrest : b.drop i = rest) :
    percentDecodeFrom b i out = .ok ((BareServer.percentDecode rest).map (out ++ ·)) := by
  induction rest using BareServer.percentDecode.induct generalizing i out with
  | case1 =>
    rw [percentDecodeFrom, if_neg (Nat.not_lt.2 (le_of_drop_nil hrest))]
    simp [BareServer.percentDecode]
  | case2 hi lo t h l hl hh hctl =>
    rw [percentDecodeFrom_escape hrest, BareServer.percentDecode]
    simp only [hh, hl, if_pos hctl, Option.map_none]
  | case3 hi lo t h l hl hh hctl ih =>
    have hnext : b.drop (i + 3) = t := (drop_cons (drop_cons (drop_cons hrest).2.2).2.2).2.2
    rw [percentDecodeFrom_escape hrest, BareServer.percentDecode]
    simp only [hh, hl, if_neg hctl, ih hnext, Option.map_map, Function.comp_def, List.append_assoc, List.singleton_append]
  | case4 hi lo t hbad =>
    rw [percentDecodeFrom_escape hrest, BareServer.percentDecode]
    cases hh : hexval hi with
    | none => rfl
    | some h =>
      cases hl : hexval lo with
      | none => rfl
      | some l => exact (hbad h l hh hl).elim
  | case5 c t hesc hbad =>
    rw [percentDecodeFrom_byte hrest hesc, BareServer.percentDecode.eq_3 _ _ hesc, if_pos hbad, if_pos hbad]
    rfl
  | case6 c t hesc hfine ih =>
    rw [percentDecodeFrom_byte hrest hesc, BareServer.percentDecode.eq_3 _ _ hesc, if_neg hfine, if_neg hfine,
      ih (drop_cons hrest).2.2]
    simp [Function.comp_def]

theorem percentDecode_ok (s : Str) : percentDecode s = .ok (BareServer.percentDecode s) := by
  rw [percentDecode, percentDecodeFrom_ok (List.drop_zero ..)]
  simp

theorem hexDigits_get {n : UInt8} (hn : n.toNat < 16) : hexDigits[n.toNat]? = some (hexDigit n) :=
  forall_nibble (P := fun n => hexDigits[n.toNat]? = some (hexDigit n)) (by decide) hn

/-- Half a byte is less than the table is long. -/
theorem encodeByte_ok (b : UInt8) : encodeByte b = .ok (BareServer.encodeByte b) := by
  have hhi : (b >>> 4).toNat < 16 := by
    have hb := b.toNat_lt
    rw [UInt8.toNat_shiftRight, Nat.shiftRight_eq_div_pow]
    simp only [UInt8.reduceToNat, Nat.reduceMod, Nat.reducePow]
    omega
  have hlo : (b &&& 0x0f).toNat < 16 := by
    rw [UInt8.toNat_and]
    exact Nat.lt_succ_of_le Nat.and_le_right
  unfold encodeByte BareServer.encodeByte
  rw [index_ok (hexDigits_get hhi), index_ok (hexDigits_get hlo)]
  split <;> rfl

theorem percentEncodePath_ok (s : Str) : percentEncodePath s = .ok (BareServer.percentEncodePath s) := by
  induction s with
  | nil => rfl
  | cons b s ih =>
    rw [percentEncodePath, encodeByte_ok, ih]
    rfl

/-! ## Responses -/

theorem sendError_ok {resp : StatusResponse} (h : resp.Marked) (keepAlive isHead : Bool) :
    sendError resp keepAlive isHead = .ok (BareServer.sendError resp keepAlive isHead) := by
  unfold sendError BareServer.sendError StatusResponse.bytes
  cases keepAlive <;> cases isHead
  · rfl
  · exact sliceTo_ok h.2
  · rfl
  · exact sliceTo_ok h.1

/-- A path below the challenge directory is cut behind its prefix, where a character ends. -/
theorem serveAcmeToken_ok (fs : FileSys) (root : Path) {decoded : Str} (hpre : acmePrefix <+: decoded)
    (htext : isUtf8 decoded = true) (keepAlive isHead : Bool) {policy : Policy} (herr : policy.errors.Marked) :
    serveAcmeToken fs root decoded keepAlive isHead policy =
      .ok (BareServer.serveAcmeToken fs root decoded keepAlive isHead policy) := by
  obtain ⟨tok, rfl⟩ := hpre
  rw [isUtf8_append (by decide)] at htext
  unfold serveAcmeToken BareServer.serveAcmeToken
  rw [textFrom_ok (isCharBoundary_append acmePrefix htext), ok_bind]
  simp only [sendError_ok herr.notFound, ok_bind, pure_eq_ok]
  split <;> rename_i hbody <;> simp only [hbody]

theorem serveMem_ok {entry : MemEntry} (hm : entry.Marked) (acceptEnc inm : Str) (keepAlive isHead : Bool)
    (policy : Policy) : serveMem entry acceptEnc inm keepAlive isHead policy =
      .ok (BareServer.serveMem entry acceptEnc inm keepAlive isHead policy) := by
  have hv : (BareServer.pickVariant acceptEnc entry.br entry.gzip entry.identity).Marked := by
    rcases pickVariant_cases acceptEnc entry.br entry.gzip entry.identity with e | e | e
    · rw [e]
      exact hm.identity
    · exact hm.br _ e
    · exact hm.gzip _ e
  unfold serveMem BareServer.serveMem
  rw [pickVariant_ok, ok_bind]
  simp only [sliceTo_ok hv, sliceFrom_ok hv, ok_bind, pure_eq_ok]
  split
  · rfl
  · cases keepAlive <;> cases isHead <;> simp

/-! ## Streaming -/

@[simp] theorem fill_length {buf chunk : Bytes} (h : chunk.length ≤ buf.length) : (fill buf chunk).length = buf.length := by
  simp only [fill, List.length_take, List.length_append, List.length_drop]
  omega

theorem take_fill {buf chunk : Bytes} (h : chunk.length ≤ buf.length) {n : Nat} (hn : n ≤ chunk.length) :
    (fill buf chunk).take n = chunk.take n := by
  rw [fill, List.take_take, Nat.min_eq_left (hn.trans h), List.take_append_of_le_length hn]

/-- A read fills the front of the buffer, and no more of it is written than was read. -/
theorem streamInto_ok {reads : List (Option Bytes)} {buf : Bytes}
    (hreads : ∀ chunk, some chunk ∈ reads → chunk.length ≤ buf.length) (n : Nat) :
    streamInto buf n reads = .ok (BareServer.streamBody n reads) := by
  induction reads generalizing buf n with
  | nil => cases n <;> rfl
  | cons read reads ih =>
    cases n with
    | zero => rfl
    | succ n =>
      cases read with
      | none => rfl
      | some chunk =>
        have hchunk := hreads chunk List.mem_cons_self
        unfold streamInto BareServer.streamBody
        split
        · rfl
        · have htake : min chunk.length (n + 1) ≤ (fill buf chunk).length := by
            rw [fill_length hchunk]
            omega
          have hwritten : (fill buf chunk).take (min chunk.length (n + 1)) = chunk.take (n + 1) := by
            rw [take_fill hchunk (Nat.min_le_left _ _), List.take_eq_take_iff]
            omega
          have hleft : n + 1 - min chunk.length (n + 1) = n + 1 - chunk.length := by omega
          have hrest := @ih (fill buf chunk) (fun c hc => by
            rw [fill_length hchunk]
            exact hreads c (List.mem_cons_of_mem _ hc)) (n + 1 - chunk.length)
          simp only [sliceTo_ok htake, hwritten, hleft, hrest, ok_bind, pure_eq_ok]

theorem streamBody_ok {reads : List (Option Bytes)} (hreads : ∀ chunk, some chunk ∈ reads → chunk.length ≤ bufLen)
    (len : Nat) : streamBody len reads = .ok (BareServer.streamBody len reads) := by
  refine streamInto_ok (fun chunk hc => ?_) len
  rw [List.length_replicate]
  exact hreads chunk hc

theorem serveDisk_ok {fs : FileSys} (hfs : fs.ReadsWithin bufLen) (entry : DiskEntry) (acceptEnc inm : Str)
    (keepAlive isHead : Bool) {policy : Policy} (herr : policy.errors.Marked) :
    serveDisk fs entry acceptEnc inm keepAlive isHead policy =
      .ok (BareServer.serveDisk fs entry acceptEnc inm keepAlive isHead policy) := by
  unfold serveDisk BareServer.serveDisk
  rw [pickVariant_ok, ok_bind]
  simp only [sendError_ok herr.internalError, ok_bind, pure_eq_ok]
  split
  · rfl
  · split
    · rfl
    · cases hsnap : fs.snapshot (BareServer.pickVariant acceptEnc entry.br entry.gzip entry.identity).path with
      | none => rfl
      | some reads =>
        simp only [streamBody_ok (hfs _ reads hsnap), ok_bind]

theorem serveCached_ok {fs : FileSys} (hfs : fs.ReadsWithin bufLen) {entry : Cached}
    (hm : ∀ m, entry = .mem m → m.Marked) (acceptEnc inm : Str) (keepAlive isHead : Bool) {policy : Policy}
    (herr : policy.errors.Marked) : serveCached fs entry acceptEnc inm keepAlive isHead policy =
      .ok (BareServer.serveCached fs entry acceptEnc inm keepAlive isHead policy) := by
  cases entry with
  | mem m => exact serveMem_ok (hm m rfl) ..
  | disk d => exact serveDisk_ok hfs d acceptEnc inm keepAlive isHead herr

/-! ## Requests -/

theorem refuse_ok {resp : StatusResponse} (h : resp.Marked) (keepAlive isHead : Bool) :
    refuse resp keepAlive isHead = .ok (say (BareServer.sendError resp keepAlive isHead) keepAlive) := by
  unfold refuse
  rw [sendError_ok h]
  rfl

theorem redirectFor_ok (site : Site) (vhosts : Vhosts) (hostKey target path query decoded : Str) (redirectHttps : Bool) :
    redirectFor site vhosts hostKey target path query decoded redirectHttps =
      .ok (BareServer.redirectFor site vhosts hostKey target path query decoded redirectHttps) := by
  unfold redirectFor BareServer.redirectFor
  simp only [percentEncodePath_ok, ok_bind, pure_eq_ok]
  split
  · rfl
  · cases site.redirects.resolve path with
    | some dest => rfl
    | none =>
      simp only
      cases (if site.canonicalUrls = true then canonicalForm decoded else none) with
      | some canon => rfl
      | none =>
        simp only
        split <;> rfl

theorem dirLocation_ok (site : Site) (vhosts : Vhosts) (hostKey query decoded : Str) (redirectHttps : Bool) :
    dirLocation site vhosts hostKey query decoded redirectHttps =
      .ok (BareServer.dirLocation site vhosts hostKey query decoded redirectHttps) := by
  unfold dirLocation
  rw [percentEncodePath_ok]
  rfl

theorem serveContent_ok {fs : FileSys} (hfs : fs.ReadsWithin bufLen) {site : Site} (hm : site.Marked) (vhosts : Vhosts)
    (req : Request) (hostKey query : Str) {decoded : Str} (htext : isUtf8 decoded = true) (keepAlive redirectHttps : Bool) :
    serveContent fs site vhosts req hostKey query decoded keepAlive redirectHttps =
      .ok (BareServer.serveContent fs site vhosts req hostKey query decoded keepAlive redirectHttps) := by
  unfold serveContent BareServer.serveContent
  simp only [refuse_ok hm.errors.notFound, dirLocation_ok, ok_bind, pure_eq_ok]
  split
  · rename_i hacme
    cases site.root with
    | none => rfl
    | some root => exact serveAcmeToken_ok fs root (List.isPrefixOf_iff_prefix.1 hacme) htext keepAlive req.isHead hm.errors
  · cases hres : resolve site.cache.map decoded with
    | none => rfl
    | some r =>
      cases r with
      | dirIndex => rfl
      | entry e =>
        obtain ⟨url, -, he⟩ := List.exists_of_findSome?_eq_some (resolve_entry hres)
        exact serveCached_ok hfs (fun m hmem => hm.entries url m (he.trans (congrArg some hmem))) _ _ keepAlive req.isHead
          hm.errors

/-- The query is cut at an ASCII byte. -/
theorem targetQuery_ok (target : Str) : targetQuery target = .ok (BareServer.targetQuery target) := by
  have hcut : BareServer.targetQuery target = target.drop (target.findIdx (· == 63)) := by
    rw [BareServer.targetQuery, List.dropWhile_eq_drop_findIdx_not]
    simp [bne]
  unfold targetQuery
  rw [hcut]
  cases hfind : target.findIdx? (· == 63) with
  | none => rw [List.findIdx?_eq_none_iff_findIdx_eq.1 hfind, List.drop_length, pure_eq_ok]
  | some p =>
    obtain ⟨hlt, hmark, -⟩ := List.findIdx?_eq_some_iff_getElem.1 hfind
    have hget : target[p]? = some 63 := by rw [List.getElem?_eq_getElem hlt, eq_of_beq hmark]
    rw [(List.findIdx?_eq_some_iff_findIdx_eq.1 hfind).2]
    exact textFrom_ok (isCharBoundary_ascii hget (by decide))

theorem handleSite_ok {fs : FileSys} (hfs : fs.ReadsWithin bufLen) {site : Site} (hm : site.Marked) (vhosts : Vhosts)
    (req : Request) (hostKey : Str) (keepAlive redirectHttps : Bool) :
    handleSite fs site vhosts req hostKey keepAlive redirectHttps =
      .ok (BareServer.handleSite fs site vhosts req hostKey keepAlive redirectHttps) := by
  unfold handleSite BareServer.handleSite
  simp only [refuse_ok hm.errors.methodNotAllowed, refuse_ok hm.errors.badRequest, targetQuery_ok, percentDecode_ok,
    redirectFor_ok, ok_bind, pure_eq_ok]
  split
  · rfl
  · split
    · rfl
    · cases hdec : (BareServer.percentDecode (targetPath req.target)).bind fromUtf8 with
      | none => rfl
      | some decoded =>
        obtain ⟨-, htext⟩ := bind_fromUtf8_eq_some.1 hdec
        simp only
        cases BareServer.redirectFor site vhosts hostKey req.target (targetPath req.target)
          (BareServer.targetQuery req.target) decoded redirectHttps with
        | some location => rfl
        | none => exact serveContent_ok hfs hm vhosts req hostKey _ htext keepAlive redirectHttps

theorem handleRequest_ok {fs : FileSys} (hfs : fs.ReadsWithin bufLen) {vhosts : Vhosts} (hm : vhosts.Marked) (head : Bytes)
    (wantKa redirectHttps : Bool) (sni : Option Str) : handleRequest fs head vhosts wantKa redirectHttps sni =
      .ok (BareServer.handleRequest fs head vhosts wantKa redirectHttps sni) := by
  unfold handleRequest BareServer.handleRequest
  rw [readRequest_ok, ok_bind]
  cases BareServer.readRequest head with
  | error isHead => exact refuse_ok hm.errors.badRequest false isHead
  | ok req =>
    simp only
    unfold handleAccepted BareServer.handleAccepted
    simp only [refuse_ok hm.errors.notFound]
    split
    · rfl
    · cases hsite : vhosts.sites.lookup (normalizeHost req.fields.hostHdr) with
      | none => rfl
      | some site => exact handleSite_ok hfs (hm.sites _ site hsite) vhosts req _ _ redirectHttps

end Checked

/-! ## Live tables -/

section

variable {h : Nat → World} {c : Crates} {path : Str}

/-- Every entry that a build puts into a cache is marked. -/
theorem buildCache_marked {env : BuildEnv} {p : Policy} {seq total seq' total' : Nat} {root : Node} {cache : SiteCache}
    (hb : buildCache env p seq root total = (some (cache, total'), seq')) {url : Str} {m : MemEntry}
    (hm : cache.map.lookup url = some (.mem m)) : m.Marked := by
  obtain ⟨data, he⟩ := buildCache_entries hb hm
  rcases entryFor_cases he with e | ⟨bd, e⟩
  · cases e
    exact makeCached_marked ..
  · cases e

theorem VhostsFrom.marked {c : Compressors} {cfg : Config} {v : Vhosts} (hv : VhostsFrom c cfg v) : v.Marked := by
  constructor
  · rw [hv.errors]
    exact errorPages_marked _
  · intro host site hsite
    obtain ⟨s, -, -, hs⟩ := hv.sites.site host site hsite
    constructor
    · rw [hs.policy]
      exact errorPages_marked _
    · intro url m hm
      rcases hs.cache with hempty | ⟨env, seq, node, total, total', seq', -, hb⟩
      · rw [hempty] at hm
        simp [SiteCache.empty] at hm
      · exact buildCache_marked hb hm

/-- A rebuilt cache goes live in a marked table. -/
theorem Vhosts.Marked.setCache {l : Live} (hl : l.runtime.vhosts.Marked) {id : Nat} {cache : SiteCache}
    (hc : ∀ url m, cache.map.lookup url = some (.mem m) → m.Marked) : (l.setCache id cache).runtime.vhosts.Marked := by
  refine ⟨hl.errors, fun host site hsite => ?_⟩
  simp only [Live.setCache, Sites.setCache, Map.lookup_mapVal, Option.map_eq_some_iff] at hsite
  obtain ⟨old, hold, rfl⟩ := hsite
  have hm := hl.sites host old hold
  split
  · exact ⟨hm.errors, hc⟩
  · exact hm

theorem scan_marked {w : Watcher} {i : Nat} (hw : w.live.runtime.vhosts.Marked) :
    Obs.Holds h (fun _ p => p.watcher.live.runtime.vhosts.Marked) (scan c w) i
      fun w' _ => w'.live.runtime.vhosts.Marked := by
  refine scan_holds (P := fun _ w' _ => w'.live.runtime.vhosts.Marked) (fun _ _ => hw) ?_ fun _ _ _ hP => hP
  intro order sigs targets j _ _ done t rest _ w' k _ hP
  refine scanSite_holds (fun _ _ _ _ => hP) fun cache total seq _ hb => ?_
  have hnew : (w'.live.setCache t.1.id cache).runtime.vhosts.Marked := hP.setCache fun url m hm => buildCache_marked hb hm
  exact ⟨hnew, hnew⟩

theorem tick_marked {w : Watcher} {i : Nat} (hw : w.live.runtime.vhosts.Marked) :
    Obs.Holds h (fun _ p => p.watcher.live.runtime.vhosts.Marked) (tick c w) i
      fun w' _ => w'.live.runtime.vhosts.Marked := by
  obtain ⟨r, j, hread, -, -⟩ := readInputs_run h w i
  refine tick_holds (P := fun w' _ _ => w'.live.runtime.vhosts.Marked) (Q := fun w' _ => w'.live.runtime.vhosts.Marked)
    hread ?_ (fun w1 t k hP => ⟨hP, hP⟩) fun w1 k hQ => (scan_marked hQ).post fun w2 l hP => ⟨hP, hP⟩
  have hsame : ∀ {w1 w2 : Watcher}, w2.live = w1.live → w1.live.runtime.vhosts.Marked → w2.live.runtime.vhosts.Marked :=
    fun e hP => e ▸ hP
  refine applyInputs_holds (P := fun w' _ _ => w'.live.runtime.vhosts.Marked)
    (fun w1 w2 t j k hcore _ hP => hsame hcore.live hP) ?_ ?_ fun _ _ => hw
  · intro _ w0 hcore
    refine reload_holds (fun seq e k _ => hsame hcore.live hw) ?_
    intro cfg s rt seq order applied last k l m _ _ hbuild _ _ _ _
    have hnew : rt.vhosts.Marked := ((buildRuntime_from w0.buildSeq k).of_run hbuild rt rfl).vhosts.marked
    exact ⟨hnew, fun _ _ _ => hnew⟩
  · intro _ w0 hcore
    have hw0 := hsame hcore.live hw
    refine reloadTls_holds (fun e k _ => hw0) fun cfg tls k _ _ _ => ?_
    have hnew : (w0.renewed cfg tls r.tlsNow).live.runtime.vhosts.Marked := hw0
    exact ⟨hnew, hnew⟩

theorem boot_marked (h : Nat → World) (c : Crates) (path : Str) :
    Obs.Holds h (fun _ p => p.watcher.live.runtime.vhosts.Marked) (boot c path) 0
      fun x _ => ∀ w, x = .ok w → w.live.runtime.vhosts.Marked := by
  refine boot_holds fun cfg s rt seq https http loops j k l _ _ hbuild _ _ _ _ => watchInit_holds ?_
  intro w order m _ _ _ hlive _ _ _
  have hnew : w.live.runtime.vhosts.Marked := by
    rw [hlive]
    exact ((buildRuntime_from 0 j).of_run hbuild rt rfl).vhosts.marked
  exact ⟨hnew, hnew⟩

end

/-- Whatever bytes stand for a head, whatever the flags and the name of the connection: on a table whose prebuilt
responses mark their headers within their buffers, every index and slice of the request is in range and between two
characters, and the answer is the one of the model. Every table of every run of the server is such a table. -/
theorem request_in_range (fs : FileSys) (hfs : fs.ReadsWithin Checked.bufLen) :
    (∀ vhosts : Vhosts, vhosts.Marked → ∀ head wantKa redirectHttps sni,
      Checked.handleRequest fs head vhosts wantKa redirectHttps sni =
        .ok (handleRequest fs head vhosts wantKa redirectHttps sni)) ∧
    ∀ (c : Crates) (path : Str) (h : Nat → World) (n : Nat),
      Obs.Holds h (fun _ p => p.watcher.live.runtime.vhosts.Marked) (process c path n) 0
        fun x _ => ∀ w, x = some w → w.live.runtime.vhosts.Marked :=
  ⟨fun _ hm head wantKa redirectHttps sni => Checked.handleRequest_ok hfs hm head wantKa redirectHttps sni,
    fun c path h n => process_holds (P := fun w _ => w.live.runtime.vhosts.Marked) (boot_marked h c path)
      (fun _ _ hw _ => tick_marked hw) (eachTick_of_forall (fun _ _ => trivial) n)⟩

/-- Every file reads as two bytes. -/
def twoByteFiles : FileSys := ⟨fun _ => some [some [104, 105]], fun _ => none, fun _ => none⟩

/-- A head whose accepted codings end in a parameter of one character of three bytes. -/
def euroHead : Bytes :=
  str "GET /?a HTTP/1.1\r\nHost: a.example\r\nAccept-Encoding: gzip;" ++ [0xE2, 0x82, 0xAC] ++ str "\r\n\r\n"

theorem request_in_range_euro :
    Checked.handleRequest twoByteFiles euroHead (indexTable []) true false none =
      .ok (handleRequest twoByteFiles euroHead (indexTable []) true false none) := by
  have hfs : twoByteFiles.ReadsWithin Checked.bufLen := by
    rintro path reads ⟨⟩ chunk hc
    cases List.mem_singleton.1 hc
    decide
  have hm : (indexTable []).Marked := by
    refine ⟨errorPages_marked _, fun host site hsite => ?_⟩
    rw [indexTable, lookup_fileTable] at hsite
    split at hsite
    · cases hsite
      refine ⟨errorPages_marked _, fun url m hm => ?_⟩
      rw [indexSite, lookup_fileSite] at hm
      split at hm
      · cases hm
        exact makeCached_marked ..
      · cases hm
    · cases hsite
  exact (request_in_range twoByteFiles hfs).1 (indexTable []) hm euroHead true false none

end BareServer
