/-
What a client reads in the header of each response: the fields of every builder, read back from the
bytes that were written.
-/
import BareServer.Serve.Framing
import BareServer.Serve.Fidelity

namespace BareServer

open BareServer.Lib

/-! ## Names -/

/-- The fields a client goes by. -/
def readNames : List Str :=
  [str "connection", str "vary", str "etag", str "content-encoding", str "content-length"]

/-- The names of the security fields. -/
def securityNames : List Str :=
  [str "X-Content-Type-Options", str "X-Frame-Options", str "Referrer-Policy", str "Permissions-Policy",
    str "Strict-Transport-Security", str "Content-Security-Policy"]

theorem securityNames_unread : ∀ n ∈ securityNames, ∀ name ∈ readNames, eqIgnoreCase n name = false := by decide

theorem mem_securityNames {h : HeaderConfig} {nv : Str × Str} (hnv : nv ∈ h.fields) : nv.1 ∈ securityNames := by
  unfold HeaderConfig.fields at hnv
  simp only [List.mem_append] at hnv
  rcases hnv with (hnv | hnv) | hnv
  · simp only [List.mem_cons, List.not_mem_nil, or_false] at hnv
    rcases hnv with rfl | rfl | rfl | rfl <;> simp [securityNames]
  · split at hnv
    · rw [List.mem_singleton] at hnv
      subst hnv
      simp [securityNames]
    · cases hnv
  · split at hnv
    · cases hnv
    · rw [List.mem_singleton] at hnv
      subst hnv
      simp [securityNames]

/-- The security fields hold none of these. -/
theorem security_named (h : HeaderConfig) {name : Str} (hn : name ∈ readNames) :
    (h.fields.filter fun nv => eqIgnoreCase nv.1 name) = [] := by
  rw [List.filter_eq_nil_iff]
  intro nv hnv
  rw [securityNames_unread _ (mem_securityNames hnv) name hn]
  exact Bool.false_ne_true

/-- The names written, against the names read. -/
theorem namesRead :
    (∀ name ∈ readNames, eqIgnoreCase (str "Content-Type") name = false ∧ eqIgnoreCase (str "Cache-Control") name = false ∧
      eqIgnoreCase (str "Allow") name = false ∧ eqIgnoreCase (str "Location") name = false) ∧
    (∀ name ∈ readNames, eqIgnoreCase (str "Connection") name = (name == str "connection") ∧
      eqIgnoreCase (str "Vary") name = (name == str "vary") ∧ eqIgnoreCase (str "ETag") name = (name == str "etag") ∧
      eqIgnoreCase (str "Content-Encoding") name = (name == str "content-encoding") ∧
      eqIgnoreCase (str "Content-Length") name = (name == str "content-length")) := by
  constructor <;> decide

/-! ## The Connection field -/

theorem connection_read : str "connection" ∈ readNames ∧ (str "connection" == str "connection") = true ∧
    (str "connection" == str "vary") = false ∧ (str "connection" == str "etag") = false ∧
    (str "connection" == str "content-encoding") = false ∧ (str "connection" == str "content-length") = false := by
  decide

section

variable {h : HeaderConfig} {keepAlive isHead : Bool}

theorem connection_sendError (hc : Clean h.csp) {code : Nat} {reason : Str} (hcode : code ≠ 301 ∧ code ≠ 304)
    (hr : Clean reason) : Response.valuesOf (str "connection") (sendError (buildStatus code reason h.render) keepAlive isHead) =
      [connWord keepAlive] := by
  obtain ⟨hmem, hself, -, -, -, hlen⟩ := connection_read
  obtain ⟨hct, hcc, hallow, -⟩ := namesRead.1 _ hmem
  obtain ⟨hconn, -, -, -, hcl⟩ := namesRead.2 _ hmem
  have hframed : (statusResponse code reason h keepAlive isHead).WellFramed isHead :=
    statusResponse_wellFramed hcode hr hc
  rw [sendError_render, Response.valuesOf_render hr.no_lf hframed.fields.oneLine]
  have hnamed : (statusResponse code reason h keepAlive isHead).named (str "connection") = [connField keepAlive] := by
    unfold Response.named statusResponse connField
    cases code == 405 <;>
      simp only [List.filter_append, List.filter_cons, List.filter_nil, hct, hcc, hallow, hconn, hcl, hself, hlen,
        security_named h hmem, if_true, if_false, Bool.false_eq_true, List.nil_append, List.append_nil]
  rw [hnamed]
  rfl

theorem redirectResponse_oneLine (hc : Clean h.csp) {location : Str} (hl : 10 ∉ location) :
    10 ∉ (redirectResponse location keepAlive h).reason ∧ Response.OneLine (redirectResponse location keepAlive h).fields := by
  obtain ⟨-, -, -, -, -, -, -, -, hreason, -, hzero⟩ := clean_pieces
  have hwords : isWord (str "Location") = true ∧ isWord (str "Content-Length") = true := by decide
  exact ⟨hreason.no_lf, .cons (isWord_spec hwords.1) hl <| .cons (isWord_spec hwords.2) hzero.no_lf <|
    (Plain.conn (plain_fields hc)).clean.oneLine⟩

theorem connection_sendRedirect (hc : Clean h.csp) {location : Str} (hl : 10 ∉ location) :
    Response.valuesOf (str "connection") (sendRedirect location keepAlive h.render) = [connWord keepAlive] := by
  obtain ⟨hmem, hself, -, -, -, hlen⟩ := connection_read
  obtain ⟨-, -, -, hloc⟩ := namesRead.1 _ hmem
  obtain ⟨hconn, -, -, -, hcl⟩ := namesRead.2 _ hmem
  obtain ⟨hreason, hfields⟩ := @redirectResponse_oneLine h keepAlive hc location hl
  rw [sendRedirect_render, Response.valuesOf_render hreason hfields]
  have hnamed : (redirectResponse location keepAlive h).named (str "connection") = [connField keepAlive] := by
    unfold Response.named redirectResponse connField
    simp only [List.filter_append, List.filter_cons, List.filter_nil, hloc, hconn, hcl, hself, hlen,
      security_named h hmem, if_true, if_false, Bool.false_eq_true, List.nil_append]
  rw [hnamed]
  rfl

theorem connection_tokenResponse (hc : Clean h.csp) (body : Bytes) :
    Response.valuesOf (str "connection") (tokenResponse body keepAlive isHead h).render = [connWord keepAlive] := by
  obtain ⟨hmem, hself, -, -, -, hlen⟩ := connection_read
  obtain ⟨hct, hcc, -⟩ := namesRead.1 _ hmem
  obtain ⟨hconn, -, -, -, hcl⟩ := namesRead.2 _ hmem
  have hframed : (tokenResponse body keepAlive isHead h).WellFramed isHead := tokenResponse_wellFramed hc
  rw [Response.valuesOf_render hframed.reason.no_lf hframed.fields.oneLine]
  have hnamed : (tokenResponse body keepAlive isHead h).named (str "connection") = [connField keepAlive] := by
    unfold Response.named tokenResponse connField
    simp only [List.filter_append, List.filter_cons, List.filter_nil, hct, hcc, hconn, hcl, hself, hlen,
      security_named h hmem, if_true, if_false, Bool.false_eq_true, List.nil_append, List.append_nil]
  rw [hnamed]
  rfl

/-! ## The fields of cached content -/

variable {c : Compressors} {data : Bytes} {p : Policy} {url acceptEnc inm : Str} {content : Bytes}

variable (keepAlive isHead c data url acceptEnc inm content) in
/-- The lines of a file's answer are clean, whatever was sent of its body. -/
theorem fileResponse_clean (hc : Clean h.csp) (hp : PolicyOf h p) :
    Clean (fileResponse c (mimeFor url) data p h url acceptEnc inm keepAlive isHead content).reason ∧
    Response.CleanFields (fileResponse c (mimeFor url) data p h url acceptEnc inm keepAlive isHead content).fields := by
  obtain ⟨-, -, -, -, -, -, -, hok, -, hnot, -⟩ := clean_pieces
  have henc := fun enc => @chosenBody_clean c (mimeFor url) data p acceptEnc enc
  have hvalidators : Plain (validatorFields (etagFor (chosenBody c (mimeFor url) data p acceptEnc).1)
      (chosenBody c (mimeFor url) data p acceptEnc).2 (varies c (mimeFor url) data p) (p.cacheControlFor url) ++
      connField keepAlive :: h.fields) :=
    (plain_validatorFields (etagFor_clean _).1 henc (hp.cacheControl url).1).append (.conn (plain_fields hc))
  have hwords : isWord (str "Content-Type") = true ∧ isWord (str "Content-Length") = true := by decide
  unfold fileResponse variantResponse
  simp only
  split
  · exact ⟨hnot, hvalidators.clean⟩
  · exact ⟨hok, .cons (isWord_spec hwords.1) (mimeFor_clean url).1 <|
      .cons (isWord_spec hwords.2) (clean_dec _) hvalidators.clean⟩

/-- The status of a file's answer, and what follows its header. -/
theorem fileResponse_body (hc : Clean h.csp) (hp : PolicyOf h p) {out : Bytes}
    (hout : out = (fileResponse c (mimeFor url) data p h url acceptEnc inm keepAlive isHead content).render) :
    if notModified inm (etagFor (chosenBody c (mimeFor url) data p acceptEnc).1) then
      statusOf out = str "304" ∧ Response.bodyOf out = some []
    else statusOf out = str "200" ∧ Response.bodyOf out = some (if isHead then [] else content) := by
  obtain ⟨hreason, hfields⟩ := fileResponse_clean keepAlive isHead c data url acceptEnc inm content hc hp
  have hbody := Response.bodyOf_render hreason hfields
  have hdec : dec 304 = str "304" ∧ dec 200 = str "200" ∧ (dec 304).length = 3 ∧ (dec 200).length = 3 := by decide
  rw [← hout] at hbody
  unfold fileResponse variantResponse at hout hbody
  simp only at hout hbody
  split
  · rename_i hnm
    rw [if_pos hnm] at hout hbody
    refine ⟨?_, hbody⟩
    rw [hout, statusOf_render _ hdec.2.2.1]
    exact hdec.1
  · rename_i hnm
    rw [if_neg hnm] at hout hbody
    refine ⟨?_, hbody⟩
    rw [hout, statusOf_render _ hdec.2.2.2]
    exact hdec.2.1

/-- What a client reads of a file's answer: whether the connection stays, whether the answer depends on
the codings it accepts, the coding and the validator of the chosen body, and its length unless that is left
out with the body. -/
structure FileFields (c : Compressors) (data : Bytes) (p : Policy) (url acceptEnc inm : Str) (keepAlive : Bool)
    (out : Bytes) : Prop where
  connection : Response.valuesOf (str "connection") out = [connWord keepAlive]
  vary : Response.valuesOf (str "vary") out = if varies c (mimeFor url) data p then [str "Accept-Encoding"] else []
  etag : Response.valuesOf (str "etag") out = [str "\"" ++ etagFor (chosenBody c (mimeFor url) data p acceptEnc).1 ++ str "\""]
  coding : Response.valuesOf (str "content-encoding") out = (chosenBody c (mimeFor url) data p acceptEnc).2.toList
  length : Response.valuesOf (str "content-length") out =
    if notModified inm (etagFor (chosenBody c (mimeFor url) data p acceptEnc).1) then []
    else [dec (chosenBody c (mimeFor url) data p acceptEnc).1.length]

/-- The validators of one name. -/
theorem validators_named {etag cacheControl : Str} {encoding : Option Str} {vary : Bool} {name : Str} (hn : name ∈ readNames) :
    ((validatorFields etag encoding vary cacheControl).filter fun nv => eqIgnoreCase nv.1 name) =
      (if name == str "etag" then [(str "ETag", str "\"" ++ etag ++ str "\"")] else []) ++
      (if name == str "content-encoding" then encoding.toList.map fun enc => (str "Content-Encoding", enc) else []) ++
      (if name == str "vary" && vary then [(str "Vary", str "Accept-Encoding")] else []) := by
  obtain ⟨-, hcc, -⟩ := namesRead.1 _ hn
  obtain ⟨-, hvary, hetag, hce, -⟩ := namesRead.2 _ hn
  unfold validatorFields
  cases encoding <;> cases vary <;>
    simp only [List.filter_append, List.filter_cons, List.filter_nil, hcc, hvary, hetag, hce, Option.toList_none,
      Option.toList_some, List.map_nil, List.map_cons, if_true, if_false, Bool.false_eq_true, List.append_nil, Bool.and_true,
      Bool.and_false, ite_self]

/-- The fields of one name in a file's answer. -/
theorem fileResponse_named {name : Str} (hn : name ∈ readNames) :
    (fileResponse c (mimeFor url) data p h url acceptEnc inm keepAlive isHead content).named name =
      (if name == str "content-length" && !notModified inm (etagFor (chosenBody c (mimeFor url) data p acceptEnc).1) then
        [(str "Content-Length", dec (chosenBody c (mimeFor url) data p acceptEnc).1.length)] else []) ++
      ((if name == str "etag" then
          [(str "ETag", str "\"" ++ etagFor (chosenBody c (mimeFor url) data p acceptEnc).1 ++ str "\"")] else []) ++
      (if name == str "content-encoding" then
          (chosenBody c (mimeFor url) data p acceptEnc).2.toList.map fun enc => (str "Content-Encoding", enc) else []) ++
      (if name == str "vary" && varies c (mimeFor url) data p then [(str "Vary", str "Accept-Encoding")] else [])) ++
      (if name == str "connection" then [connField keepAlive] else []) := by
  obtain ⟨hct, -⟩ := namesRead.1 _ hn
  obtain ⟨hconn, -, -, -, hcl⟩ := namesRead.2 _ hn
  have hsec := security_named h hn
  unfold fileResponse variantResponse Response.named
  simp only
  cases notModified inm (etagFor (chosenBody c (mimeFor url) data p acceptEnc).1) <;>
    simp only [notModifiedResponse, okResponse, List.filter_append, List.filter_cons, List.filter_nil, validators_named hn,
      connField, hct, hconn, hcl, hsec, if_true, if_false, Bool.false_eq_true, Bool.not_true, Bool.not_false, Bool.and_true,
      Bool.and_false, List.nil_append]
  split <;> simp only [List.nil_append, List.cons_append]

theorem fileResponse_fields (hc : Clean h.csp) (hp : PolicyOf h p) :
    FileFields c data p url acceptEnc inm keepAlive
      (fileResponse c (mimeFor url) data p h url acceptEnc inm keepAlive isHead content).render := by
  obtain ⟨hreason, hfields⟩ := fileResponse_clean keepAlive isHead c data url acceptEnc inm content hc hp
  have hread : ∀ name ∈ readNames, _ := fun name hn =>
    (Response.valuesOf_render hreason.no_lf hfields.oneLine name).trans (congrArg (List.map Prod.snd) (fileResponse_named hn))
  -- the five names are five
  have hne : readNames.Pairwise fun a b => (a == b) = false ∧ (b == a) = false := by decide
  simp only [readNames, List.pairwise_cons, List.mem_cons, List.not_mem_nil, or_false, forall_eq_or_imp, forall_eq] at hne
  constructor
  · rw [hread _ (by simp [readNames])]
    simp [hne, connField]
  · rw [hread _ (by simp [readNames])]
    simp only [hne, Bool.false_and, Bool.false_eq_true, if_false, beq_self_eq_true, Bool.true_and, List.nil_append,
      List.append_nil]
    split <;> rfl
  · rw [hread _ (by simp [readNames])]
    simp [hne]
  · rw [hread _ (by simp [readNames])]
    simp [hne, Function.comp_def]
  · rw [hread _ (by simp [readNames])]
    cases notModified inm (etagFor (chosenBody c (mimeFor url) data p acceptEnc).1) <;> simp [hne]

end

end BareServer
