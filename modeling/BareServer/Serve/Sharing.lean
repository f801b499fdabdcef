/-
What a cache between server and clients is told: whenever the answer to a URL depends on the codings a
request accepts, each answer says so, and names the coding and the validator of its own body.
-/
import BareServer.Serve.Fields

namespace BareServer

open BareServer.Lib

/-! ## Codings -/

/-- What the codings make of a file. -/
inductive Coded (c : Compressors) (data : Bytes) (p : Policy) : Option Str → Bytes → Prop
  | identity : Coded c data p none data
  | gzip : Coded c data p (some (str "gzip")) (c.gzip data p.t.gzipLevel)
  | br : Coded c data p (some (str "br")) (c.brotli data p.t.brotliQuality)

section

variable {c : Compressors} {mime : Str} {data : Bytes} {p : Policy}

/-- The compressed bodies of a file, when it has them. -/
theorem compressVariants_coded : (∀ g, (compressVariants c mime data p).1 = some g → g = c.gzip data p.t.gzipLevel) ∧
    ∀ b, (compressVariants c mime data p).2 = some b → b = c.brotli data p.t.brotliQuality := by
  have hpick : ∀ {limit : Nat} {body x : Bytes},
      (if data.length ≤ limit then some body else none).filter (fun b => decide (b.length < data.length)) = some x →
        x = body := by
    intro limit body x h
    have h := (Option.filter_eq_some_iff.1 h).1
    split at h
    · exact (Option.some.inj h).symm
    · cases h
  unfold compressVariants
  split
  · exact ⟨fun g h => (by cases h), fun b h => (by cases h)⟩
  · exact ⟨fun g h => hpick h, fun b h => hpick h⟩

/-- The chosen body is that of the chosen coding. -/
theorem chosenBody_coded (acceptEnc : Str) :
    Coded c data p (chosenBody c mime data p acceptEnc).2 (chosenBody c mime data p acceptEnc).1 := by
  obtain ⟨hgzip, hbr⟩ := @compressVariants_coded c mime data p
  rcases pickVariant_cases acceptEnc ((compressVariants c mime data p).2.map (·, some (str "br")))
    ((compressVariants c mime data p).1.map (·, some (str "gzip"))) (data, none) with e | e | e
  · rw [chosenBody, e]
    exact .identity
  · obtain ⟨body, hbody, e⟩ := Option.map_eq_some_iff.1 e
    rw [chosenBody, ← e, hbr body hbody]
    exact .br
  · obtain ⟨body, hbody, e⟩ := Option.map_eq_some_iff.1 e
    rw [chosenBody, ← e, hgzip body hbody]
    exact .gzip

/-- A file without compressed bodies has one answer. -/
theorem chosenBody_of_not_varies (h : varies c mime data p = false) (acceptEnc : Str) :
    chosenBody c mime data p acceptEnc = (data, none) := by
  simp only [varies, Bool.or_eq_false_iff, Option.isSome_eq_false_iff, Option.isNone_iff_eq_none] at h
  rw [chosenBody, h.1, h.2]
  rfl

end

/-! ## Entries -/

/-- An answer tells of a body: its coding, its validator, and the body itself in a 200 that is not to a HEAD. -/
structure Tells (coding : Option Str) (body : Bytes) (isHead : Bool) (out : Bytes) : Prop where
  coding : Response.valuesOf (str "content-encoding") out = coding.toList
  etag : Response.valuesOf (str "etag") out = [str "\"" ++ etagFor body ++ str "\""]
  content : statusOf out = str "304" ∧ Response.bodyOf out = some [] ∨
    statusOf out = str "200" ∧ Response.bodyOf out = some (if isHead then [] else body)

section

variable {env : BuildEnv} {p : Policy} {h : HeaderConfig} {buildDir : Option Path} {url : Str} {data : Bytes}
  {files files' : Files} {e : Cached} {fs : FileSys}

/-- The answer of an entry as it was built. -/
theorem makeEntry_serves (hp : PolicyOf h p) (hmade : makeEntry env p buildDir url data files = (some e, files'))
    (hfs : ∀ bd, buildDir = some bd → IsUrl url ∧ Unmodified fs files') (acceptEnc inm : Str) (keepAlive isHead : Bool) :
    (serveCached fs e acceptEnc inm keepAlive isHead p).out =
      (fileResponse env.compressors (mimeFor url) data p h url acceptEnc inm keepAlive isHead
        (chosenBody env.compressors (mimeFor url) data p acceptEnc).1).render := by
  unfold makeEntry at hmade
  cases buildDir with
  | none =>
    cases hmade
    rw [serveCached, serveMem_makeCached hp rfl]
  | some bd =>
    obtain ⟨hurl, hback⟩ := hfs bd rfl
    obtain ⟨hentry, hstored, -⟩ := makeDiskEntry_made env url (mimeFor url) data p bd files
    simp only at hmade
    generalize makeDiskEntry env.compressors env.writes url (mimeFor url) data p bd files = made at hmade hentry hstored
    obtain ⟨_ | d, files1⟩ := made
    · cases hmade
    · cases hmade
      simp only at hentry hstored
      split at hentry
      · rename_i hcan
        cases hentry
        obtain ⟨ns, hmem, -, hserve⟩ := serveDisk_diskEntry (c := env.compressors) hp (rfl : mimeFor url = _) fs data bd acceptEnc
          inm keepAlive isHead
        obtain ⟨reads, hsnap, hreads⟩ := hback _ _ (hstored hcan hurl _ hmem)
        rw [serveCached, hserve]
        split
        · rename_i hnobody
          -- nothing is read for a 304 or a HEAD, and nothing is sent
          unfold fileResponse variantResponse
          simp only
          rcases Bool.or_eq_true_iff.1 hnobody with hnm | hhead
          · rw [hnm]
            rfl
          · rw [hhead]
            rfl
        · rw [hsnap]
          simp only [streamBody_readsTo hreads, List.take_length]
      · cases hentry

/-- It tells of the chosen body. -/
theorem makeEntry_tells (hc : Clean h.csp) (hp : PolicyOf h p)
    (hmade : makeEntry env p buildDir url data files = (some e, files'))
    (hfs : ∀ bd, buildDir = some bd → IsUrl url ∧ Unmodified fs files') (acceptEnc inm : Str) (keepAlive isHead : Bool) :
    Tells (chosenBody env.compressors (mimeFor url) data p acceptEnc).2
      (chosenBody env.compressors (mimeFor url) data p acceptEnc).1 isHead
      (serveCached fs e acceptEnc inm keepAlive isHead p).out := by
  have hout := makeEntry_serves hp hmade hfs acceptEnc inm keepAlive isHead
  have hfields : FileFields env.compressors data p url acceptEnc inm keepAlive
      (serveCached fs e acceptEnc inm keepAlive isHead p).out := by
    rw [hout]
    exact fileResponse_fields hc hp
  refine ⟨hfields.coding, hfields.etag, ?_⟩
  have hbody := fileResponse_body hc hp hout
  split at hbody
  · exact .inl hbody
  · exact .inr hbody

/-- For every file, URL and policy, in memory or on disk: two answers to requests that differ in the codings
they accept are the same, or both say that they depend on them; and each answer, whether it sends the body or
says that the client has it, names the coding and the validator of that very body. -/
theorem serveCached_shared (env : BuildEnv) (t : Tuning) {h : HeaderConfig} (hc : Clean h.csp) (storage : Storage)
    (dir : Path) (hmade : makeEntry env (.withHeaders t h storage dir) buildDir url data files = (some e, files'))
    (hfs : ∀ bd, buildDir = some bd → IsUrl url ∧ Unmodified fs files') (accept accept' inm : Str) (keepAlive isHead : Bool) :
    let p := Policy.withHeaders t h storage dir
    let out := (serveCached fs e accept inm keepAlive isHead p).out
    let out' := (serveCached fs e accept' inm keepAlive isHead p).out
    (out ≠ out' → Response.valuesOf (str "vary") out = [str "Accept-Encoding"] ∧
      Response.valuesOf (str "vary") out' = [str "Accept-Encoding"]) ∧
    ∃ coding body, Coded env.compressors data p coding body ∧ Tells coding body isHead out := by
  intro p out out'
  have hp : PolicyOf h p := policyOf_withHeaders _ _ _ _
  have hout : out = _ := makeEntry_serves hp hmade hfs accept inm keepAlive isHead
  have hout' : out' = _ := makeEntry_serves hp hmade hfs accept' inm keepAlive isHead
  constructor
  · intro hne
    rw [hout, hout', (fileResponse_fields hc hp).vary, (fileResponse_fields hc hp).vary]
    cases hvary : varies env.compressors (mimeFor url) data p with
    | true => exact ⟨rfl, rfl⟩
    | false =>
      refine absurd ?_ hne
      rw [hout, hout']
      unfold fileResponse
      rw [chosenBody_of_not_varies hvary, chosenBody_of_not_varies hvary]
  · exact ⟨_, _, @chosenBody_coded env.compressors (mimeFor url) data p accept,
      makeEntry_tells hc hp hmade hfs accept inm keepAlive isHead⟩

end

/-- A script on disk with compressed bodies, asked for with and without a coding. -/
theorem serveCached_shared_sidecar :
    let t : Tuning := { Tuning.default with minCompressBytes := 1 }
    let p := Policy.withHeaders t .default .disk (str "/snap")
    ∃ e files, makeEntry sidecarEnv p (some (str "/snap/0")) (str "/a.js") (str "let a;") ∅ = (some e, files) ∧
      ((serveCached (readBack files) e (str "gzip") [] true false p).out ≠
          (serveCached (readBack files) e [] [] true false p).out →
        Response.valuesOf (str "vary") (serveCached (readBack files) e (str "gzip") [] true false p).out =
          [str "Accept-Encoding"]) ∧
      ∃ coding body, Coded sidecarEnv.compressors (str "let a;") p coding body ∧
        Tells coding body false (serveCached (readBack files) e (str "gzip") [] true false p).out := by
  intro t p
  obtain ⟨e, he⟩ := Option.isSome_iff_exists.1
    (show (makeEntry sidecarEnv p (some (str "/snap/0")) (str "/a.js") (str "let a;") ∅).1.isSome from by decide +kernel)
  have hmade := pair_of_fst he
  have hclean : Clean HeaderConfig.default.csp := by decide
  have h := serveCached_shared sidecarEnv t hclean .disk (str "/snap") hmade
    (fun _ _ => ⟨⟨str "a.js", rfl, by decide⟩, unmodified_readBack _⟩) (str "gzip") [] [] true false
  exact ⟨e, _, hmade, fun hne => (h.1 hne).1, h.2⟩

end BareServer
