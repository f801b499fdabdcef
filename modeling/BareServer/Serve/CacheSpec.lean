/-
What serving a cache entry writes: a 304 or a 200 of the variant the request accepts, the same for
an entry in memory and for one whose bodies are read back from the snapshot.
-/
import BareServer.Serve.Render

namespace BareServer

open BareServer.Lib

/-! ## Values of the prebuilt fields -/

/-- Every media type there is. -/
def mimeTypes : List Str :=
  [str "text/html; charset=utf-8", str "text/css; charset=utf-8", str "text/javascript; charset=utf-8",
    str "application/json; charset=utf-8", str "text/plain; charset=utf-8", str "application/xml; charset=utf-8",
    str "image/svg+xml", str "image/png", str "image/jpeg", str "image/gif", str "image/webp", str "image/avif",
    str "image/x-icon", str "font/woff", str "font/woff2", str "font/ttf", str "application/pdf",
    str "application/wasm", str "video/mp4", str "video/webm", str "audio/mpeg", str "application/octet-stream"]

theorem mimeFor_mem (path : Str) : mimeFor path ∈ mimeTypes := by
  unfold mimeFor
  split
  · simp [mimeTypes]
  · simp only
    iterate 21 refine iteInduction (motive := (· ∈ mimeTypes)) (fun _ => by simp [mimeTypes]) fun _ => ?_
    simp [mimeTypes]

theorem mimeTypes_clean : ∀ m ∈ mimeTypes, Clean m ∧ 58 ∉ m := by decide

theorem mimeFor_clean (path : Str) : Clean (mimeFor path) ∧ 58 ∉ mimeFor path := mimeTypes_clean _ (mimeFor_mem path)

theorem etagFor_clean (body : Bytes) : Clean (etagFor body) ∧ 58 ∉ etagFor body := by
  have hdash : Clean (str "-") ∧ 58 ∉ str "-" := by decide
  have hhex : ∀ n, 58 ∉ hex n := fun n h => absurd (isAlnum_of_mem_hex h) (by decide)
  unfold etagFor
  simp only [clean_append, List.mem_append, not_or]
  exact ⟨⟨⟨clean_hex _, hdash.1⟩, clean_hex _⟩, ⟨hhex _, hdash.2⟩, hhex _⟩

/-- A policy that writes the header policy `h`: its block and error pages are `h`'s, and no cache
directive holds a colon or a control byte. -/
structure PolicyOf (h : HeaderConfig) (p : Policy) : Prop where
  securityHeaders : p.securityHeaders = h.render
  errors : p.errors = ErrorPages.new h.render
  cacheControl : ∀ url, Clean (p.cacheControlFor url) ∧ 58 ∉ p.cacheControlFor url

theorem policyOf_withHeaders (h : HeaderConfig) (t : Tuning) (storage : Storage) (dir : Path) :
    PolicyOf h (.withHeaders t h storage dir) := by
  refine ⟨rfl, rfl, fun url => ?_⟩
  have htext : (Clean (str "public, max-age=") ∧ 58 ∉ str "public, max-age=") ∧
      (Clean (str ", immutable") ∧ 58 ∉ str ", immutable") ∧
      (Clean (str ", must-revalidate") ∧ 58 ∉ str ", must-revalidate") := by decide
  have hdec : ∀ n, 58 ∉ dec n := fun n h => absurd (isAlnum_of_mem_dec h) (by decide)
  unfold Policy.cacheControlFor Policy.withHeaders
  split <;> simp only [clean_append, List.mem_append, not_or]
  · exact ⟨⟨⟨htext.1.1, clean_dec _⟩, htext.2.1.1⟩, ⟨htext.1.2, hdec _⟩, htext.2.1.2⟩
  · exact ⟨⟨⟨htext.1.1, clean_dec _⟩, htext.2.2.1⟩, ⟨htext.1.2, hdec _⟩, htext.2.2.2⟩

/-! ## Streaming -/

/-- What successive reads of an undamaged file give: its content, in pieces. -/
def ReadsTo (reads : List (Option Bytes)) (content : Bytes) : Prop :=
  ∃ chunks : List Bytes, reads = chunks.map some ∧ (∀ c ∈ chunks, c ≠ []) ∧ chunks.flatten = content

/-- The copying loop delivers exactly the bytes asked for, however they are read. -/
theorem streamBody_readsTo {reads : List (Option Bytes)} {content : Bytes} (h : ReadsTo reads content) (n : Nat) :
    streamBody n reads = (content.take n, true) := by
  obtain ⟨chunks, rfl, hne, rfl⟩ := h
  induction chunks generalizing n with
  | nil => cases n <;> simp [streamBody]
  | cons c cs ih =>
    cases n with
    | zero => simp [streamBody]
    | succ n =>
      have hc : c.isEmpty = false := by simpa using hne c List.mem_cons_self
      rw [List.map_cons, streamBody, hc, if_neg Bool.false_ne_true,
        ih (n + 1 - c.length) fun x hx => hne x (List.mem_cons_of_mem _ hx), List.flatten_cons, List.take_append]

/-! ## One answer for both backends -/

/-- The answer of one variant: a 304 when the client holds it, and otherwise a 200 with `content`,
which a HEAD request leaves out. -/
def variantResponse (mime cacheControl : Str) (h : HeaderConfig) (vary : Bool) (bodyLen : Nat) (etag : Str)
    (encoding : Option Str) (inm : Str) (keepAlive isHead : Bool) (content : Bytes) : Response :=
  if notModified inm etag then notModifiedResponse etag encoding vary cacheControl keepAlive h
  else okResponse mime bodyLen etag encoding vary cacheControl keepAlive h (if isHead then [] else content)

/-- The body and coding a request gets of a file. -/
def chosenBody (c : Compressors) (mime : Str) (data : Bytes) (p : Policy) (acceptEnc : Str) : Bytes × Option Str :=
  pickVariant acceptEnc ((compressVariants c mime data p).2.map (·, some (str "br")))
    ((compressVariants c mime data p).1.map (·, some (str "gzip"))) (data, none)

/-- Does a file have more than its identity variant? -/
def varies (c : Compressors) (mime : Str) (data : Bytes) (p : Policy) : Bool :=
  (compressVariants c mime data p).1.isSome || (compressVariants c mime data p).2.isSome

/-- Choosing among variants built from bodies is choosing the body. -/
theorem pickVariant_map {α β : Type} (f : α → β) (acceptEnc : Str) (br gzip : Option α) (identity : α) :
    pickVariant acceptEnc (br.map f) (gzip.map f) (f identity) = f (pickVariant acceptEnc br gzip identity) := by
  unfold pickVariant
  cases br <;> cases gzip <;> cases acceptsEncoding acceptEnc (str "br") <;>
    cases acceptsEncoding acceptEnc (str "gzip") <;> rfl

/-- A variant that is chosen is there. -/
theorem pickVariant_cases {α : Type} (acceptEnc : Str) (br gzip : Option α) (identity : α) :
    pickVariant acceptEnc br gzip identity = identity ∨ br = some (pickVariant acceptEnc br gzip identity) ∨
      gzip = some (pickVariant acceptEnc br gzip identity) := by
  unfold pickVariant
  cases br <;> cases gzip <;> cases acceptsEncoding acceptEnc (str "br") <;>
    cases acceptsEncoding acceptEnc (str "gzip") <;> simp [Option.filter]

/-- The coding of a chosen body is one of the two names. -/
theorem chosenBody_encoding {c : Compressors} {mime : Str} {data : Bytes} {p : Policy} {acceptEnc enc : Str}
    (h : (chosenBody c mime data p acceptEnc).2 = some enc) : enc = str "gzip" ∨ enc = str "br" := by
  rcases pickVariant_cases acceptEnc ((compressVariants c mime data p).2.map (·, some (str "br")))
    ((compressVariants c mime data p).1.map (·, some (str "gzip"))) (data, none) with e | e | e
  · rw [chosenBody, e] at h
    cases h
  · obtain ⟨body, -, e⟩ := Option.map_eq_some_iff.1 e
    rw [chosenBody, ← e] at h
    exact .inr (Option.some.inj h).symm
  · obtain ⟨body, -, e⟩ := Option.map_eq_some_iff.1 e
    rw [chosenBody, ← e] at h
    exact .inl (Option.some.inj h).symm

theorem chosenBody_clean {c : Compressors} {mime : Str} {data : Bytes} {p : Policy} {acceptEnc enc : Str}
    (h : (chosenBody c mime data p acceptEnc).2 = some enc) : Clean enc := by
  rcases chosenBody_encoding h with rfl | rfl <;> decide

section

variable {c : Compressors} {mime : Str} {p : Policy} {h : HeaderConfig} {url : Str}

/-- What a request gets of a file's bytes. -/
def fileResponse (c : Compressors) (mime : Str) (data : Bytes) (p : Policy) (h : HeaderConfig) (url acceptEnc inm : Str)
    (keepAlive isHead : Bool) (content : Bytes) : Response :=
  let b := chosenBody c mime data p acceptEnc
  variantResponse mime (p.cacheControlFor url) h (varies c mime data p) b.1.length (etagFor b.1) b.2 inm keepAlive
    isHead content

theorem makeCached_pick (data : Bytes) (acceptEnc : Str) :
    pickVariant acceptEnc (makeCached c url mime data p).br (makeCached c url mime data p).gzip
        (makeCached c url mime data p).identity =
      buildVariant mime (chosenBody c mime data p acceptEnc).1 (chosenBody c mime data p acceptEnc).2
        (varies c mime data p) (p.cacheControlFor url) p.securityHeaders := by
  unfold chosenBody varies makeCached
  obtain ⟨gz, br⟩ := compressVariants c mime data p
  rw [← pickVariant_map fun b : Bytes × Option Str => buildVariant mime b.1 b.2 (gz.isSome || br.isSome)
    (p.cacheControlFor url) p.securityHeaders]
  cases gz <;> cases br <;> rfl

variable (c url mime p) in
theorem diskEntry_pick (data : Bytes) (bd : Path) (acceptEnc : Str) :
    ∃ ns, pickVariant acceptEnc (diskEntry c url mime data p bd).br (diskEntry c url mime data p bd).gzip
        (diskEntry c url mime data p bd).identity =
      diskVariant mime (varies c mime data p) (p.cacheControlFor url) p.securityHeaders (snapshotPath bd ns url)
        (chosenBody c mime data p acceptEnc).1 (chosenBody c mime data p acceptEnc).2 ∧
      (ns, (chosenBody c mime data p acceptEnc).1) ∈ bodies c mime data p := by
  unfold chosenBody varies diskEntry bodies
  obtain ⟨gz, br⟩ := compressVariants c mime data p
  -- the three answers are one choice among a name, a body and a coding
  let x : Str × Bytes × Option Str := pickVariant acceptEnc (br.map fun b => (str "br", b, some (str "br")))
    (gz.map fun g => (str "gzip", g, some (str "gzip"))) (str "identity", data, none)
  have hx := pickVariant_cases acceptEnc (br.map fun b => (str "br", b, some (str "br")))
    (gz.map fun g => (str "gzip", g, some (str "gzip"))) (str "identity", data, none)
  have hbody : pickVariant acceptEnc (br.map (·, some (str "br"))) (gz.map (·, some (str "gzip"))) (data, none) = x.2 := by
    rw [← pickVariant_map Prod.snd]
    cases gz <;> cases br <;> rfl
  refine ⟨x.1, ?_, ?_⟩
  · rw [hbody, ← pickVariant_map fun y : Str × Bytes × Option Str => diskVariant mime (gz.isSome || br.isSome)
      (p.cacheControlFor url) p.securityHeaders (snapshotPath bd y.1 url) y.2.1 y.2.2]
    cases gz <;> cases br <;> rfl
  · rw [hbody]
    rcases hx with e | e | e
    · rw [show x = _ from e]
      exact List.mem_cons_self
    · obtain ⟨body, rfl, e⟩ := Option.map_eq_some_iff.1 e
      rw [show x = _ from e.symm]
      simp
    · obtain ⟨body, rfl, e⟩ := Option.map_eq_some_iff.1 e
      rw [show x = _ from e.symm]
      simp

/-- The head of a 200, whose body is left out or not: the prebuilt header in the form asked for. -/
theorem variant_head (hp : PolicyOf h p) (hm : mime = mimeFor url) (data : Bytes) (acceptEnc : Str)
    (keepAlive : Bool) (content : Bytes) :
    (if keepAlive then
        buildHeader mime (chosenBody c mime data p acceptEnc).1.length (etagFor (chosenBody c mime data p acceptEnc).1)
          (chosenBody c mime data p acceptEnc).2 (varies c mime data p) (p.cacheControlFor url) p.securityHeaders
      else closeHeader
        (buildHeader mime (chosenBody c mime data p acceptEnc).1.length (etagFor (chosenBody c mime data p acceptEnc).1)
          (chosenBody c mime data p acceptEnc).2 (varies c mime data p) (p.cacheControlFor url) p.securityHeaders)) =
      (okResponse mime (chosenBody c mime data p acceptEnc).1.length (etagFor (chosenBody c mime data p acceptEnc).1)
        (chosenBody c mime data p acceptEnc).2 (varies c mime data p) (p.cacheControlFor url) keepAlive h content).head := by
  rw [hp.securityHeaders]
  refine connection_header (hm ▸ (mimeFor_clean url).2) (etagFor_clean _).2 ?_ (hp.cacheControl url).2 h _ _
  intro enc he
  rcases chosenBody_encoding he with rfl | rfl <;> decide

/-- An entry in memory answers with its file's bytes. -/
theorem serveMem_makeCached (hp : PolicyOf h p) (hm : mime = mimeFor url) (data : Bytes) (acceptEnc inm : Str)
    (keepAlive isHead : Bool) :
    serveMem (makeCached c url mime data p) acceptEnc inm keepAlive isHead p =
      ⟨(fileResponse c mime data p h url acceptEnc inm keepAlive isHead
        (chosenBody c mime data p acceptEnc).1).render, [], some keepAlive⟩ := by
  have hhead := variant_head (c := c) hp hm data acceptEnc keepAlive
  have hcc : (makeCached c url mime data p).cacheControl = p.cacheControlFor url := rfl
  have hvary : (makeCached c url mime data p).vary = varies c mime data p := rfl
  unfold serveMem fileResponse variantResponse
  simp only [makeCached_pick, hcc, hvary]
  generalize chosenBody c mime data p acceptEnc = b at hhead ⊢
  cases hnm : notModified inm (etagFor b.1) with
  | true => simp only [buildVariant, hnm, if_true, hp.securityHeaders, send304_render]
  | false =>
    simp only [buildVariant, hnm, Bool.false_eq_true, if_false, List.take_left, List.drop_left, Response.render,
      ← hhead]
    cases keepAlive <;> cases isHead <;> simp [okResponse]

/-- An entry on disk answers the same when the file it opens reads to the recorded length, and needs
no file for a 304 or a HEAD. -/
theorem serveDisk_diskEntry (hp : PolicyOf h p) (hm : mime = mimeFor url) (fs : FileSys) (data : Bytes) (bd : Path)
    (acceptEnc inm : Str) (keepAlive isHead : Bool) :
    ∃ ns, (ns, (chosenBody c mime data p acceptEnc).1) ∈ bodies c mime data p ∧
      pickVariant acceptEnc (diskEntry c url mime data p bd).br (diskEntry c url mime data p bd).gzip
          (diskEntry c url mime data p bd).identity =
        diskVariant mime (varies c mime data p) (p.cacheControlFor url) p.securityHeaders (snapshotPath bd ns url)
          (chosenBody c mime data p acceptEnc).1 (chosenBody c mime data p acceptEnc).2 ∧
      serveDisk fs (diskEntry c url mime data p bd) acceptEnc inm keepAlive isHead p =
        if notModified inm (etagFor (chosenBody c mime data p acceptEnc).1) || isHead then
          ⟨(fileResponse c mime data p h url acceptEnc inm keepAlive isHead []).render, [], some keepAlive⟩
        else
          match fs.snapshot (snapshotPath bd ns url) with
          | none => ⟨sendError p.errors.internalError false isHead, [snapshotPath bd ns url], some false⟩
          | some reads =>
            let (body, ok) := streamBody (chosenBody c mime data p acceptEnc).1.length reads
            ⟨(fileResponse c mime data p h url acceptEnc inm keepAlive isHead body).render,
              [snapshotPath bd ns url], if ok then some keepAlive else none⟩ := by
  have hhead := variant_head (c := c) hp hm data acceptEnc keepAlive
  obtain ⟨ns, hpick, hmem⟩ := diskEntry_pick c mime p url data bd acceptEnc
  have hcc : (diskEntry c url mime data p bd).cacheControl = p.cacheControlFor url := rfl
  have hvary : (diskEntry c url mime data p bd).vary = varies c mime data p := rfl
  refine ⟨ns, hmem, hpick, ?_⟩
  unfold serveDisk fileResponse variantResponse
  simp only [hpick, hcc, hvary]
  generalize chosenBody c mime data p acceptEnc = b at hhead ⊢
  cases hnm : notModified inm (etagFor b.1) with
  | true => simp only [diskVariant, hnm, Bool.true_or, if_true, hp.securityHeaders, send304_render]
  | false =>
    simp only [diskVariant, hnm, Bool.false_eq_true, if_false, Bool.false_or]
    cases isHead with
    | true =>
      simp only [if_true, Response.render, hhead []]
      simp [okResponse]
    | false =>
      simp only [Bool.false_eq_true, if_false]
      cases fs.snapshot (snapshotPath bd ns url) with
      | none => rfl
      | some reads =>
        simp only [Response.render, hhead (streamBody b.1.length reads).1]
        rfl

end
end BareServer
