/-
Content negotiation. Where a field names each coding once, the loop over its elements with its early
return and its wildcard comes to a condition on the set of elements: the coding is listed with a
weight other than zero, or it is not listed and the asterisk is. The order of the list is no part of it.
-/
import BareServer.Lib.Trim
import BareServer.Lib.Utf8
import BareServer.Serve.Sharing

namespace BareServer

open BareServer.Lib

/-! ## The field -/

/-- An element of an `Accept-Encoding` field: a coding and its parameters, without the white space
around them. -/
structure Coding where
  name : Str
  params : List Str

def codingOf (part : Str) : Coding where
  name := trim ((part.splitOn 59).headD [])
  params := (part.splitOn 59).tail.map trim

/-- The elements of a field. -/
def codings (field : Str) : List Coding := (field.splitOn 44).map codingOf

/-- The value of a weight parameter. -/
def weightOf : Str → Option Str
  | q :: 61 :: value => if toLower q = 113 then some (trim value) else none
  | _ => none

/-- The weight of a coding; the last one counts. -/
def Coding.weight (c : Coding) : Option Str := (c.params.filterMap weightOf).getLast?

/-- A weight of zero: `0`, or `0.` and zeros. -/
def ZeroWeight (w : Str) : Prop := w = str "0" ∨ ∃ n, w = str "0." ++ List.replicate n 48

/-- The coding has no weight, or one other than zero. -/
def Coding.Wanted (c : Coding) : Prop := ∀ w, c.weight = some w → ¬ ZeroWeight w

/-- The coding is `token`, in whatever case. -/
def Coding.Is (c : Coding) (token : Str) : Prop := lower c.name = lower token

/-- No two elements name one coding. -/
def NamedOnce (cs : List Coding) : Prop := ((cs.map fun c => lower c.name).filter fun n => !n.isEmpty).Nodup

/-- A coding is accepted: it is listed and wanted, or it is not listed and the asterisk is and is
wanted. -/
def Accepts (cs : List Coding) (token : Str) : Prop :=
  (∃ c ∈ cs, c.Is token ∧ c.Wanted) ∨ (∀ c ∈ cs, ¬ c.Is token) ∧ ∃ c ∈ cs, c.name = str "*" ∧ c.Wanted

/-! ## Weights -/

theorem isZeroQ_iff (w : Str) : isZeroQ w = true ↔ ZeroWeight w := by
  constructor
  · intro h
    unfold isZeroQ at h
    split at h
    · exact .inl rfl
    · rename_i rest
      refine .inr ⟨rest.length, congrArg (48 :: 46 :: ·) (List.eq_replicate_iff.2 ⟨rfl, fun b hb => ?_⟩)⟩
      simpa using List.all_eq_true.1 h b hb
    · cases h
  · rintro (rfl | ⟨n, rfl⟩)
    · rfl
    · exact List.all_eq_true.2 fun b hb => by simpa using List.eq_of_mem_replicate hb

theorem toLower_eq_equals {b : UInt8} : toLower b = 61 ↔ b = 61 := by
  constructor
  · intro h
    unfold toLower at h
    split at h
    · rename_i hb
      simp only [Bool.and_eq_true, decide_eq_true_eq, UInt8.le_iff_toNat_le, UInt8.reduceToNat] at hb
      have hb' := congrArg UInt8.toNat h
      simp only [UInt8.toNat_add, UInt8.reduceToNat] at hb'
      omega
    · exact h
  · rintro rfl
    rfl

/-- A text of two bytes that reads `q=` in some case. -/
theorem eqIgnoreCase_weight {p : Str} : eqIgnoreCase p (str "q=") = true ↔ ∃ q, p = [q, 61] ∧ toLower q = 113 := by
  have hq : lower (str "q=") = [113, 61] := by decide
  rw [eqIgnoreCase, beq_iff_eq, hq]
  constructor
  · intro h
    obtain ⟨a, p', rfl, ha, h⟩ := List.map_eq_cons_iff.1 h
    obtain ⟨b, p'', rfl, hb, h⟩ := List.map_eq_cons_iff.1 h
    cases List.map_eq_nil_iff.1 h
    exact ⟨a, by rw [toLower_eq_equals.1 hb], ha⟩
  · rintro ⟨q, rfl, hq⟩
    simp only [lower, List.map_cons, List.map_nil, hq]
    rfl

/-- The text behind two ASCII bytes of a text begins a character. -/
theorem boundary_two {q : UInt8} {v w : Str} (hq : q < 0x80) (h : isUtf8 (q :: 61 :: v ++ w) = true) :
    isCharBoundary (q :: 61 :: v) 2 = true := by
  have h61 : (61 : UInt8) < 0x80 := by decide
  have hv : isUtf8 (v ++ w) = true := (isUtf8_cut (s := []) h61 (isUtf8_cut (s := []) hq h).2).2
  cases v with
  | nil => rfl
  | cons b v =>
    have hb := isUtf8_head hv
    simp only [isCharBoundary, List.getElem?_cons_succ, List.getElem?_cons_zero]
    rcases hb with hb | hb <;> simp [hb]

theorem lt_of_toLower_eq {q : UInt8} (h : toLower q = 113) : q < 0x80 := by
  unfold toLower at h
  split at h
  · rename_i hb
    simp only [Bool.and_eq_true, decide_eq_true_eq, UInt8.le_iff_toNat_le, UInt8.reduceToNat] at hb
    simp only [UInt8.lt_iff_toNat_lt, UInt8.reduceToNat]
    omega
  · rw [h]
    decide

/-! ## One element -/

theorem isUtf8_spaces {w : Str} (h : Spaces w) : isUtf8 w = true := by
  induction h with
  | nil => rfl
  | @one a s ha _ ih =>
    have hascii : a < 0x80 := by
      simp only [isSpace1, Bool.or_eq_true, Bool.and_eq_true, decide_eq_true_eq, beq_iff_eq] at ha
      simp only [UInt8.le_iff_toNat_le, ← UInt8.toNat_inj, UInt8.reduceToNat] at ha
      simp only [UInt8.lt_iff_toNat_lt, UInt8.reduceToNat]
      omega
    have hone : isUtf8 [a] = true := isUtf8_ascii (by simpa using hascii)
    exact (isUtf8_append hone s).trans ih
  | @two a b s hab _ ih =>
    have htwo : isUtf8 [a, b] = true := by
      simp only [isSpace2, Bool.and_eq_true, Bool.or_eq_true, beq_iff_eq] at hab
      obtain ⟨rfl, rfl | rfl⟩ := hab <;> decide
    exact (isUtf8_append htwo s).trans ih
  | @three a b c s habc _ ih =>
    have hthree : isUtf8 [a, b, c] = true := by
      simp only [isSpace3, Bool.and_eq_true, Bool.or_eq_true, beq_iff_eq, decide_eq_true_eq] at habc
      rcases habc with ((⟨⟨rfl, rfl⟩, rfl⟩ | ⟨⟨rfl, rfl⟩, ((⟨hlo, hhi⟩ | rfl) | rfl) | rfl⟩) | ⟨⟨rfl, rfl⟩, rfl⟩) |
        ⟨⟨rfl, rfl⟩, rfl⟩
      · decide
      · have htail : (0x80 : UInt8) ≤ c ∧ c ≤ 0xBF := ⟨hlo, UInt8.le_trans hhi (by decide)⟩
        have hstep : Utf8State.step .tail1 c = some .start := if_pos htail
        have hlead : Utf8State.run .start [0xE2, 0x80] = some .tail1 := by decide
        have hrun : Utf8State.run .start [0xE2, 0x80, c] = some .start := by
          rw [show [0xE2, 0x80, c] = [0xE2, 0x80] ++ [c] from rfl, Utf8State.run_append, hlead, Option.bind_some,
            Utf8State.run, hstep]
          rfl
        rw [isUtf8, hrun]
        rfl
      all_goals decide
    exact (isUtf8_append hthree s).trans ih

/-- A parameter of the text `p`, trimmed, is taken for a weight exactly when it begins with `q=`. -/
theorem weight_test {p : Str} (hp : ∃ w, isUtf8 (p ++ w) = true) :
    ((getTo p 2).map fun p => eqIgnoreCase p (str "q=")).getD false = true ↔
      ∃ q v, p = q :: 61 :: v ∧ toLower q = 113 := by
  constructor
  · intro h
    unfold getTo at h
    split at h
    · obtain ⟨q, htake, hq⟩ := eqIgnoreCase_weight.1 h
      exact ⟨q, p.drop 2, (List.take_append_drop 2 p).symm.trans (congrArg (· ++ p.drop 2) htake), hq⟩
    · cases h
  · rintro ⟨q, v, rfl, hq⟩
    obtain ⟨w, hw⟩ := hp
    rw [getTo, if_pos (boundary_two (lt_of_toLower_eq hq) hw), Option.map_some, Option.getD_some]
    exact eqIgnoreCase_weight.2 ⟨q, rfl, hq⟩

theorem weightOf_some {p w : Str} : weightOf p = some w ↔ ∃ q v, p = q :: 61 :: v ∧ toLower q = 113 ∧ trim v = w := by
  constructor
  · intro h
    unfold weightOf at h
    split at h
    · rename_i q v
      split at h
      · rename_i hq
        exact ⟨q, v, rfl, hq, Option.some.inj h⟩
      · cases h
    · cases h
  · rintro ⟨q, v, rfl, hq, rfl⟩
    exact if_pos hq

/-- The loop over the parameters keeps the last weight. -/
theorem paramsAcceptable_eq {params : List Str} (hp : ∀ p ∈ params, isUtf8 p = true) (acceptable : Bool) :
    paramsAcceptable acceptable params =
      (((params.map trim).filterMap weightOf).getLast?.map fun w => !isZeroQ w).getD acceptable := by
  induction params generalizing acceptable with
  | nil => rfl
  | cons p params ih =>
    have ih := ih fun p' hp' => hp p' (List.mem_cons_of_mem _ hp')
    have htrim : ∃ w, isUtf8 (trim p ++ w) = true := by
      obtain ⟨u, w, hu, -, hsplit⟩ := trim_split p
      refine ⟨w, ?_⟩
      rw [← isUtf8_append (isUtf8_spaces hu), ← List.append_assoc, ← hsplit]
      exact hp p List.mem_cons_self
    rw [paramsAcceptable, List.map_cons]
    by_cases hq : ∃ q v, trim p = q :: 61 :: v ∧ toLower q = 113
    · rw [if_pos ((weight_test htrim).2 hq), ih]
      obtain ⟨q, v, hv, hq⟩ := hq
      rw [List.filterMap_cons_some (weightOf_some.2 ⟨q, v, hv, hq, rfl⟩), List.getLast?_cons, hv]
      cases ((params.map trim).filterMap weightOf).getLast? <;> rfl
    · have hnone : weightOf (trim p) = none := by
        cases hw : weightOf (trim p) with
        | none => rfl
        | some w =>
          obtain ⟨q, v, hv, hq', -⟩ := weightOf_some.1 hw
          exact absurd ⟨q, v, hv, hq'⟩ hq
      rw [if_neg (mt (weight_test htrim).1 hq), ih, List.filterMap_cons_none hnone]

/-- Pieces of a text at an ASCII byte are texts. -/
theorem isUtf8_splitOn {c : UInt8} (hc : c < 0x80) {s : Str} (h : isUtf8 s = true) : ∀ p ∈ s.splitOn c, isUtf8 p = true := by
  intro p hp
  obtain ⟨a, b, hab⟩ := between_of_mem_splitOn hp
  have hone : isUtf8 [c] = true := isUtf8_ascii (by simpa using hc)
  have hwhole : isUtf8 (a ++ c :: (p ++ c :: b)) = true := by
    rw [← hab, show c :: (s ++ [c]) = [c] ++ (s ++ [c]) from rfl, isUtf8_append hone, isUtf8_append h]
    exact hone
  exact (isUtf8_cut hc (isUtf8_cut hc hwhole).2).1

/-- The parameters of an element leave it acceptable exactly when it is wanted. -/
theorem paramsAcceptable_iff {part : Str} (h : isUtf8 part = true) :
    paramsAcceptable true (part.splitOn 59).tail = true ↔ (codingOf part).Wanted := by
  rw [paramsAcceptable_eq fun p hp => isUtf8_splitOn (by decide) h p (List.mem_of_mem_tail hp)]
  unfold Coding.Wanted Coding.weight codingOf
  cases (((part.splitOn 59).tail.map trim).filterMap weightOf).getLast? with
  | none => simp
  | some w => simp [← isZeroQ_iff]

/-! ## The list -/

theorem NamedOnce.cons {c : Coding} {cs : List Coding} (h : NamedOnce (c :: cs)) :
    NamedOnce cs ∧ ∀ c' ∈ cs, c.name ≠ [] → ¬ c'.Is c.name := by
  unfold NamedOnce at h ⊢
  rw [List.map_cons] at h
  by_cases hn : c.name = []
  · refine ⟨?_, fun _ _ h => absurd hn h⟩
    rwa [hn, List.filter_cons_of_neg (by simp [lower])] at h
  · rw [List.filter_cons_of_pos (by simpa [lower] using hn), List.nodup_cons] at h
    refine ⟨h.2, fun c' hc' _ he => h.1 ?_⟩
    rw [List.mem_filter, List.mem_map]
    exact ⟨⟨c', hc', he⟩, by simpa [lower] using hn⟩

theorem NamedOnce.perm {cs cs' : List Coding} (h : cs.Perm cs') (hone : NamedOnce cs) : NamedOnce cs' :=
  ((h.map _).filter _).nodup_iff.1 hone

/-- The loop from a wildcard seen so far. -/
theorem acceptsFrom_iff {token : Str} (ht : token ≠ []) {parts : List Str} (hu : ∀ p ∈ parts, isUtf8 p = true)
    (hone : NamedOnce (parts.map codingOf)) (wildcard : Option Bool) :
    acceptsFrom token wildcard parts = true ↔
      (∃ c ∈ parts.map codingOf, c.Is token ∧ c.Wanted) ∨ (∀ c ∈ parts.map codingOf, ¬ c.Is token) ∧
        ((∃ c ∈ parts.map codingOf, c.name = str "*" ∧ c.Wanted) ∨
          (∀ c ∈ parts.map codingOf, c.name ≠ str "*") ∧ wildcard = some true) := by
  induction parts generalizing wildcard with
  | nil => cases wildcard <;> simp [acceptsFrom]
  | cons p parts ih =>
    obtain ⟨hrest, hhead⟩ := hone.cons
    have hp := paramsAcceptable_iff (hu p List.mem_cons_self)
    have ih := ih (fun p' hp' => hu p' (List.mem_cons_of_mem _ hp')) hrest
    have hname : ∀ {n}, n ≠ [] → lower (codingOf p).name = lower n → ∀ c ∈ parts.map codingOf, lower c.name ≠ lower n := by
      intro n hn he c hc hc'
      have hne : (codingOf p).name ≠ [] := fun h => hn (List.map_eq_nil_iff.1 (by rw [← lower, ← he, h]; rfl))
      exact hhead c hc hne (hc'.trans he.symm)
    have htest : eqIgnoreCase (trim ((p.splitOn 59).headD [])) token = true ↔ (codingOf p).Is token := beq_iff_eq
    rw [acceptsFrom]
    simp only [List.map_cons, List.exists_mem_cons_iff, List.forall_mem_cons]
    by_cases his : (codingOf p).Is token
    · -- the explicit entry, and no other names the coding
      have hnone := hname ht his
      rw [if_pos (htest.2 his), hp]
      constructor
      · exact fun h => .inl (.inl ⟨his, h⟩)
      · rintro ((h | ⟨c, hc, hc', -⟩) | ⟨⟨h, -⟩, -⟩)
        · exact h.2
        · exact absurd hc' (hnone c hc)
        · exact absurd his h
    · rw [if_neg (mt htest.1 his), ih]
      by_cases hstar : (codingOf p).name = str "*"
      · -- the only asterisk
        have hnone : ∀ c ∈ parts.map codingOf, c.name ≠ str "*" := fun c hc he =>
          hname (n := str "*") (by decide) (by rw [hstar]) c hc (by rw [he])
        have hno : ¬ ∃ c ∈ parts.map codingOf, c.name = str "*" ∧ c.Wanted := fun ⟨c, hc, he, _⟩ => hnone c hc he
        have hw : (if trim ((p.splitOn 59).headD []) == str "*" then some (paramsAcceptable true (p.splitOn 59).tail)
            else wildcard) = some (paramsAcceptable true (p.splitOn 59).tail) := if_pos (beq_iff_eq.2 hstar)
        rw [hw, Option.some.injEq, hp, and_iff_right hnone, or_iff_right hno, or_iff_left hno]
        simp only [his, hstar, false_and, false_or, not_false_eq_true, true_and, ne_eq, not_true_eq_false, or_false]
      · have hw : (if trim ((p.splitOn 59).headD []) == str "*" then some (paramsAcceptable true (p.splitOn 59).tail)
            else wildcard) = wildcard := if_neg (mt beq_iff_eq.1 hstar)
        rw [hw]
        simp only [his, hstar, false_and, false_or, not_false_eq_true, true_and, ne_eq]

theorem acceptsFrom_none_iff {token : Str} (ht : token ≠ []) {parts : List Str} (hu : ∀ p ∈ parts, isUtf8 p = true)
    (hone : NamedOnce (parts.map codingOf)) :
    acceptsFrom token none parts = true ↔ Accepts (parts.map codingOf) token := by
  rw [acceptsFrom_iff ht hu hone]
  simp [Accepts]

theorem accepts_perm {cs cs' : List Coding} (h : cs.Perm cs') (token : Str) : Accepts cs token ↔ Accepts cs' token := by
  unfold Accepts
  simp only [h.mem_iff]

/-! ## What is sent -/

/-- Which variant a field gets: brotli when there is one and it is accepted, else gzip when there is one
and it is accepted, else identity. -/
inductive Gets {α : Type} (cs : List Coding) (br gzip : Option α) (identity : α) : α → Prop
  | br {v : α} (h : br = some v) (ha : Accepts cs (str "br")) : Gets cs br gzip identity v
  | gzip {v : α} (hno : br = none ∨ ¬ Accepts cs (str "br")) (h : gzip = some v) (ha : Accepts cs (str "gzip")) :
      Gets cs br gzip identity v
  | identity (hno : br = none ∨ ¬ Accepts cs (str "br")) (hno' : gzip = none ∨ ¬ Accepts cs (str "gzip")) :
      Gets cs br gzip identity identity

theorem gets_pickVariant {α : Type} {cs : List Coding} {field : Str}
    (hfield : ∀ {token}, token ≠ [] → (acceptsEncoding field token = true ↔ Accepts cs token))
    (br gzip : Option α) (identity : α) : Gets cs br gzip identity (pickVariant field br gzip identity) := by
  have hbr := @hfield (str "br") (by decide)
  have hgz := @hfield (str "gzip") (by decide)
  unfold pickVariant
  split
  · rename_i v hv
    obtain ⟨hv, ha⟩ := Option.filter_eq_some_iff.1 hv
    exact .br hv (hbr.1 ha)
  · rename_i hno
    have hno : br = none ∨ ¬ Accepts cs (str "br") := by
      cases br with
      | none => exact .inl rfl
      | some v => exact .inr fun ha => by simp [hbr.2 ha] at hno
    split
    · rename_i v hv
      obtain ⟨hv, ha⟩ := Option.filter_eq_some_iff.1 hv
      exact .gzip hno hv (hgz.1 ha)
    · rename_i hno'
      refine .identity hno ?_
      cases gzip with
      | none => exact .inl rfl
      | some v => exact .inr fun ha => by simp [hgz.2 ha] at hno'

/-- What is sent of a variant: a 304 to a client that holds it, and else its header, in the form that says
what becomes of the connection, and its body unless that is left out. -/
def variantSent (header body : Bytes) (etag : Str) (encoding : Option Str) (vary : Bool) (cacheControl inm : Str)
    (keepAlive isHead : Bool) (p : Policy) : Bytes :=
  if notModified inm etag then send304 etag encoding vary cacheControl keepAlive p.securityHeaders
  else (if keepAlive then header else closeHeader header) ++ if isHead then [] else body

theorem serveMem_sends (e : MemEntry) (acceptEnc inm : Str) (keepAlive isHead : Bool) (p : Policy) :
    let v := pickVariant acceptEnc e.br e.gzip e.identity
    (serveMem e acceptEnc inm keepAlive isHead p).out =
      variantSent (v.fullKa.take v.headerLen) (v.fullKa.drop v.headerLen) v.etag v.encoding e.vary e.cacheControl inm
        keepAlive isHead p := by
  intro v
  unfold serveMem variantSent
  simp only
  split
  · rfl
  · cases keepAlive <;> cases isHead <;> simp [v]

theorem serveDisk_sends (fs : FileSys) (e : DiskEntry) (acceptEnc inm : Str) (keepAlive isHead : Bool) (p : Policy) :
    let v := pickVariant acceptEnc e.br e.gzip e.identity
    let content := (fs.snapshot v.path).map fun reads => (streamBody v.len reads).1
    let out := (serveDisk fs e acceptEnc inm keepAlive isHead p).out
    out = variantSent v.headerKa (content.getD []) v.etag v.encoding e.vary e.cacheControl inm keepAlive isHead p ∨
      content = none ∧ out = sendError p.errors.internalError false isHead := by
  intro v content out
  unfold out serveDisk variantSent
  simp only
  split
  · exact .inl rfl
  cases isHead with
  | true => exact .inl (by simp [v])
  | false =>
    cases hsnap : fs.snapshot v.path with
    | none => exact .inr ⟨by simp [content, hsnap], rfl⟩
    | some reads => exact .inl (by simp [content, v, hsnap])

/-- The answer of an entry as it was built, whatever its snapshot holds by now: the coding it names is that of
the chosen body, or it is the error page. -/
theorem makeEntry_names {env : BuildEnv} {p : Policy} {h : HeaderConfig} {buildDir : Option Path} {url : Str} {data : Bytes}
    {files files' : Files} {e : Cached} (hc : Clean h.csp) (hp : PolicyOf h p)
    (hmade : makeEntry env p buildDir url data files = (some e, files')) (fs : FileSys) (acceptEnc inm : Str)
    (keepAlive isHead : Bool) :
    let out := (serveCached fs e acceptEnc inm keepAlive isHead p).out
    Response.valuesOf (str "content-encoding") out =
        (chosenBody env.compressors (mimeFor url) data p acceptEnc).2.toList ∨
      buildDir ≠ none ∧ out = sendError p.errors.internalError false isHead := by
  intro out
  have hcoding : ∀ content, Response.valuesOf (str "content-encoding")
      (fileResponse env.compressors (mimeFor url) data p h url acceptEnc inm keepAlive isHead content).render =
        (chosenBody env.compressors (mimeFor url) data p acceptEnc).2.toList := fun _ => (fileResponse_fields hc hp).coding
  have hentry : entryFor env p buildDir url data = some e := by rw [← makeEntry_fst url data files, hmade]
  unfold entryFor at hentry
  cases buildDir with
  | none =>
    cases hentry
    left
    rw [show out = _ from congrArg Reply.out (serveMem_makeCached hp rfl data acceptEnc inm keepAlive isHead)]
    exact hcoding _
  | some bd =>
    simp only at hentry
    split at hentry
    · cases hentry
      obtain ⟨ns, -, -, hserve⟩ := serveDisk_diskEntry (c := env.compressors) hp (rfl : mimeFor url = _) fs data bd acceptEnc inm
        keepAlive isHead
      have hout : out = _ := congrArg Reply.out hserve
      split at hout
      · exact .inl (hout ▸ hcoding _)
      · split at hout
        · exact .inr ⟨Option.some_ne_none _, hout⟩
        · exact .inl (hout ▸ hcoding _)
    · cases hentry

/-- A coding is accepted exactly when it is listed with a weight other than zero, or is not listed and
the asterisk is; a reordered list accepts the same. An entry is served by its brotli variant if that is
accepted, else by its gzip one if that is, else by identity: the bytes sent are that variant's, from memory or
from the snapshot. And the answer of an entry as it was built names the coding that its bytes are in. -/
theorem acceptsEncoding_negotiates {field : Str} (hu : isUtf8 field = true) (hone : NamedOnce (codings field)) :
    (∀ token, token ≠ [] → (acceptsEncoding field token = true ↔ Accepts (codings field) token)) ∧
    (∀ field' token, token ≠ [] → (field.splitOn 44).Perm (field'.splitOn 44) →
      acceptsEncoding field' token = acceptsEncoding field token) ∧
    (∀ (e : MemEntry) (inm : Str) (keepAlive isHead : Bool) (p : Policy), ∃ v,
      Gets (codings field) e.br e.gzip e.identity v ∧
      (serveMem e field inm keepAlive isHead p).out =
        variantSent (v.fullKa.take v.headerLen) (v.fullKa.drop v.headerLen) v.etag v.encoding e.vary e.cacheControl inm
          keepAlive isHead p) ∧
    (∀ (fs : FileSys) (e : DiskEntry) (inm : Str) (keepAlive isHead : Bool) (p : Policy), ∃ v,
      Gets (codings field) e.br e.gzip e.identity v ∧
      let content := (fs.snapshot v.path).map fun reads => (streamBody v.len reads).1
      let out := (serveDisk fs e field inm keepAlive isHead p).out
      out = variantSent v.headerKa (content.getD []) v.etag v.encoding e.vary e.cacheControl inm keepAlive isHead p ∨
        content = none ∧ out = sendError p.errors.internalError false isHead) ∧
    ∀ (env : BuildEnv) (t : Tuning) (h : HeaderConfig) (storage : Storage) (dir : Path) (buildDir : Option Path) (url : Str)
      (data : Bytes) (files files' : Files) (e : Cached), Clean h.csp →
      let p := Policy.withHeaders t h storage dir
      makeEntry env p buildDir url data files = (some e, files') →
      ∀ (fs : FileSys) (inm : Str) (keepAlive isHead : Bool), ∃ body coding,
        Gets (codings field) ((compressVariants env.compressors (mimeFor url) data p).2.map (·, some (str "br")))
          ((compressVariants env.compressors (mimeFor url) data p).1.map (·, some (str "gzip"))) (data, none) (body, coding) ∧
        let out := (serveCached fs e field inm keepAlive isHead p).out
        (Response.valuesOf (str "content-encoding") out = coding.toList ∨
          buildDir ≠ none ∧ out = sendError p.errors.internalError false isHead) ∧
        ((∀ bd, buildDir = some bd → IsUrl url ∧ Unmodified fs files') → Tells coding body isHead out) := by
  have hparts := isUtf8_splitOn (c := 44) (by decide) hu
  have hfield : ∀ {token}, token ≠ [] → (acceptsEncoding field token = true ↔ Accepts (codings field) token) :=
    fun ht => acceptsFrom_none_iff ht hparts hone
  refine ⟨fun _ => hfield, fun field' token ht hperm => ?_, fun e inm keepAlive isHead p => ?_,
    fun fs e inm keepAlive isHead p => ?_, ?_⟩
  · have hcs := hperm.map codingOf
    have hfield' : acceptsEncoding field' token = true ↔ Accepts (codings field') token :=
      acceptsFrom_none_iff ht (fun p hp => hparts p (hperm.mem_iff.2 hp)) (hone.perm hcs)
    exact Bool.eq_iff_iff.2 ((hfield'.trans (accepts_perm hcs token).symm).trans (hfield ht).symm)
  · exact ⟨_, gets_pickVariant hfield e.br e.gzip e.identity, serveMem_sends e field inm keepAlive isHead p⟩
  · exact ⟨_, gets_pickVariant hfield e.br e.gzip e.identity, serveDisk_sends fs e field inm keepAlive isHead p⟩
  · intro env t h storage dir buildDir url data files files' e hc p hmade fs inm keepAlive isHead
    have hp : PolicyOf h p := policyOf_withHeaders _ _ _ _
    exact ⟨_, _, gets_pickVariant hfield _ _ _, makeEntry_names hc hp hmade fs field inm keepAlive isHead,
      fun hfs => makeEntry_tells hc hp hmade hfs field inm keepAlive isHead⟩

/-- A field with white space, mixed case, parameters, a refusal and the asterisk, and a script with both
compressed bodies. -/
theorem acceptsEncoding_negotiates_example :
    let field := str "GZip ; x=1 ; Q=0.00, deflate;q=0.5, *;q=1"
    let t : Tuning := { Tuning.default with minCompressBytes := 1 }
    let p := Policy.withHeaders t .default .memory (str "/snap")
    ¬ Accepts (codings field) (str "gzip") ∧ Accepts (codings field) (str "br") ∧
      ∃ e files, makeEntry sidecarEnv p none (str "/a.js") (str "let a;") ∅ = (some e, files) ∧
        ∃ body coding, Gets (codings field) (some (sidecarEnv.compressors.brotli (str "let a;") t.brotliQuality, some (str "br")))
            (some (sidecarEnv.compressors.gzip (str "let a;") t.gzipLevel, some (str "gzip"))) (str "let a;", none) (body, coding) ∧
          Tells coding body false (serveCached ⟨fun _ => none, fun _ => none, fun _ => none⟩ e field [] true false p).out := by
  intro field t p
  obtain ⟨h, -, -, -, hbuilt⟩ := @acceptsEncoding_negotiates field (by decide) (by unfold NamedOnce; decide +kernel)
  rw [← h _ (by decide), ← h _ (by decide)]
  obtain ⟨e, he⟩ := Option.isSome_iff_exists.1
    (show (makeEntry sidecarEnv p none (str "/a.js") (str "let a;") ∅).1.isSome from by decide +kernel)
  have hmade := pair_of_fst he
  obtain ⟨body, coding, hgets, -, htells⟩ := hbuilt sidecarEnv t .default .memory (str "/snap") none (str "/a.js") (str "let a;")
    ∅ _ e (by decide) hmade ⟨fun _ => none, fun _ => none, fun _ => none⟩ [] true false
  exact ⟨by decide +kernel, by decide +kernel, e, _, hmade, body, coding, hgets, htells fun _ h => by cases h⟩

end BareServer
