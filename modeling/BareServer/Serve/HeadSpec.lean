/-
What an accepted request head looks like: every break in it is a CRLF, none of its field lines is
folded, one names the host at most, and none declares a body. A response that keeps the connection
answers an accepted head, so the bytes after such a head begin the next one.
-/
import BareServer.Serve.Handle

namespace BareServer

open BareServer.Lib

/-! ## Other readings of a head -/

/-- Split at every CR, LF or CRLF, as a lenient reader does. -/
def splitAnyBreak : Bytes → List Bytes
  | [] => [[]]
  | 13 :: 10 :: s => [] :: splitAnyBreak s
  | b :: s => if b == 13 || b == 10 then [] :: splitAnyBreak s else (splitAnyBreak s).modifyHead (b :: ·)

/-- Is a byte SP or HTAB? -/
def isBlank (b : UInt8) : Bool := b == 32 || b == 9

/-- Does a line start with SP or HTAB? -/
def isFolded (line : Bytes) : Bool := (line.head?.map isBlank).getD false

/-- A line's field name with its SP and HTAB deleted, and its trimmed value. -/
def looseField (line : Bytes) : Option (Str × Str) :=
  (splitOnce line (str ":")).map fun nv => (nv.1.filter (fun b => !isBlank b), trim nv.2)

/-- The trimmed values of the fields of one name, under the loose reading. -/
def fieldValues (name : Str) (lines : List Bytes) : List Str :=
  (lines.filterMap looseField).filterMap fun nv => if eqIgnoreCase nv.1 name then some nv.2 else none

/-- A head that no reader frames differently: `lines` are those after the request line. -/
structure CleanlyFramed (head : Bytes) : Prop where
  breaks : splitAnyBreak head = splitCrlf head
  unfolded : ∀ line ∈ (splitCrlf head).tail, isFolded line = false
  oneHost : (fieldValues (str "host") (splitCrlf head).tail).length ≤ 1
  noTransferEncoding : fieldValues (str "transfer-encoding") (splitCrlf head).tail = []
  zeroLength : ∀ v ∈ fieldValues (str "content-length") (splitCrlf head).tail, v = str "0"

/-! ## Breaks -/

/-- Where breaks are well formed, no CR or LF stands outside a CRLF. -/
theorem splitAnyBreak_eq {s : Bytes} (h : wellFormedHead s = true) : splitAnyBreak s = splitCrlf s := by
  induction s using splitCrlf.induct with
  | case1 => rfl
  | case2 s ih =>
    rw [wellFormedHead] at h
    rw [splitAnyBreak, splitCrlf, ih h]
  | case3 b s hcrlf ih =>
    rw [wellFormedHead.eq_3 _ _ hcrlf] at h
    rw [splitAnyBreak.eq_3 _ _ hcrlf, splitCrlf.eq_3 _ _ hcrlf]
    by_cases hbad : (b == 13 || b == 10 || b == 127 || decide (b < 32) && b != 9) = true
    · rw [if_pos hbad] at h
      cases h
    · rw [if_neg hbad] at h
      have hb : (b == 13 || b == 10) = false := by
        simp only [Bool.or_eq_true, not_or, Bool.not_eq_true] at hbad
        rw [hbad.1.1.1, hbad.1.1.2, Bool.or_self]
      rw [hb, if_neg Bool.false_ne_true, ih h]

/-! ## Field lines -/

/-- The pass over non-empty lines that a blank one ends. -/
theorem fieldLines_blank (rest : List Str) : ∀ (ls : List Str) (f : Fields), (∀ l ∈ ls, l ≠ []) →
    fieldLines f (ls ++ [] :: rest) = ls.foldlM fieldLine f
  | [], f, _ => rfl
  | l :: ls, f, h => by
    have hne : l.isEmpty = false := by simpa using h l List.mem_cons_self
    rw [List.cons_append, fieldLines, hne, if_neg Bool.false_ne_true, List.foldlM_cons]
    congr 1
    funext f'
    exact fieldLines_blank rest ls f' fun x hx => h x (List.mem_cons_of_mem _ hx)

/-- A field line the server reads is unfolded, and the loose reading agrees with the server's. -/
theorem fieldOf_some {line name value : Str} (h : fieldOf line = some (name, value)) :
    isFolded line = false ∧ looseField line = some (name, value) := by
  unfold fieldOf at h
  split at h
  · cases h
  · rename_i hf
    cases hs : splitOnce line (str ":") with
    | none => rw [hs] at h; cases h
    | some nv =>
      obtain ⟨n, v⟩ := nv
      rw [hs] at h
      simp only at h
      split at h
      · cases h
      · rename_i hn
        cases h
        constructor
        · cases line with
          | nil => rfl
          | cons b t =>
            simp only [Bool.or_eq_true, not_or, Bool.not_eq_true] at hf
            have h1 : str " " = [32] := by decide
            have h2 : str "\t" = [9] := by decide
            rw [h1, h2] at hf
            simp only [List.isPrefixOf_cons_cons, List.isPrefixOf_nil_left, Bool.and_true] at hf
            simp only [isFolded, isBlank, List.head?_cons, Option.map_some, Option.getD_some, Bool.beq_comm (a := b),
              hf.1, hf.2, Bool.or_self]
        · have hfilter : name.filter (fun b => !isBlank b) = name := by
            rw [List.filter_eq_self]
            intro b hb
            simp only [Bool.or_eq_true, not_or, Bool.not_eq_true, List.any_eq_false] at hn
            simpa [isBlank] using hn.2 b hb
          rw [looseField, hs, Option.map_some, hfilter]

/-- What one field line does to the framing facts. -/
structure FieldStep (f f' : Fields) (name value : Str) : Prop where
  host : eqIgnoreCase name (str "host") = true → f.hostSeen = false ∧ f'.hostSeen = true
  seen : f.hostSeen = true → f'.hostSeen = true
  body : f'.hasBody = false → f.hasBody = false
  transferEncoding : f'.hasBody = false → eqIgnoreCase name (str "transfer-encoding") = false
  contentLength : f'.hasBody = false → eqIgnoreCase name (str "content-length") = true → value = str "0"

/-- A name that is one of two different words is not the other. -/
theorem eqIgnoreCase_other {name a b : Str} (h : eqIgnoreCase name a = true) (hab : lower a ≠ lower b) :
    eqIgnoreCase name b = false := by
  simp only [eqIgnoreCase, beq_iff_eq] at h
  simpa [eqIgnoreCase, h] using hab

theorem fieldLine_some {f f' : Fields} {line : Str} (h : fieldLine f line = some f') :
    ∃ name value, fieldOf line = some (name, value) ∧ FieldStep f f' name value := by
  unfold fieldLine at h
  cases hf : fieldOf line with
  | none => rw [hf] at h; cases h
  | some nv =>
    obtain ⟨name, value⟩ := nv
    rw [hf] at h
    simp only at h
    refine ⟨name, value, rfl, ?_⟩
    split at h
    · rename_i hhost
      have hte := eqIgnoreCase_other hhost (b := str "transfer-encoding") (by decide)
      have hcl := eqIgnoreCase_other hhost (b := str "content-length") (by decide)
      split at h
      · cases h
      · rename_i hseen
        cases h
        exact ⟨fun _ => ⟨by simpa using hseen, rfl⟩, fun _ => rfl, id, fun _ => hte, fun _ h => by simp [hcl] at h⟩
    · rename_i hhost
      split at h
      · rename_i hcl
        have hte := eqIgnoreCase_other hcl (b := str "transfer-encoding") (by decide)
        cases h
        split
        · exact ⟨fun h => absurd h hhost, id, nofun, nofun, nofun⟩
        · rename_i hv
          exact ⟨fun h => absurd h hhost, id, id, fun _ => hte, fun _ _ => by simpa using hv⟩
      · rename_i hcl
        split at h
        · cases h
          exact ⟨fun h => absurd h hhost, id, nofun, nofun, nofun⟩
        · rename_i hte
          have hte' : eqIgnoreCase name (str "transfer-encoding") = false := by simpa using hte
          -- the remaining names touch neither flag
          repeat' split at h
          all_goals
            cases h
            exact ⟨fun h => absurd h hhost, id, id, fun _ => hte', fun _ h => absurd h hcl⟩

theorem fieldValues_cons {name n v : Str} {line : Bytes} {ls : List Bytes} (h : looseField line = some (n, v)) :
    fieldValues name (line :: ls) = (if eqIgnoreCase n name then [v] else []) ++ fieldValues name ls := by
  simp only [fieldValues, List.filterMap_cons, h]
  split <;> simp_all

/-- What the whole pass has established when it reaches the blank line without a body. -/
structure FieldsRead (f : Fields) (ls : List Bytes) : Prop where
  unfolded : ∀ line ∈ ls, isFolded line = false
  noHost : f.hostSeen = true → fieldValues (str "host") ls = []
  oneHost : (fieldValues (str "host") ls).length ≤ 1
  noTransferEncoding : fieldValues (str "transfer-encoding") ls = []
  zeroLength : ∀ v ∈ fieldValues (str "content-length") ls, v = str "0"

theorem fieldsRead_of_foldlM : ∀ (ls : List Bytes) (f f' : Fields), ls.foldlM fieldLine f = some f' →
    f'.hasBody = false → FieldsRead f ls ∧ f.hasBody = false
  | [], f, f', h, hb => by
    cases h
    exact ⟨⟨nofun, fun _ => rfl, Nat.zero_le _, rfl, nofun⟩, hb⟩
  | l :: ls, f, f', h, hb => by
    rw [List.foldlM_cons] at h
    obtain ⟨f1, h1, h2⟩ := Option.bind_eq_some_iff.1 h
    obtain ⟨ih, hb1⟩ := fieldsRead_of_foldlM ls f1 f' h2 hb
    obtain ⟨name, value, hf, hstep⟩ := fieldLine_some h1
    obtain ⟨hfold, hloose⟩ := fieldOf_some hf
    -- `hasBody` stays once it is set, so no field has set it
    refine ⟨⟨?_, fun hs => ?_, ?_, ?_, ?_⟩, hstep.body hb1⟩
    · rintro line (_ | ⟨_, hl⟩)
      · exact hfold
      · exact ih.unfolded line hl
    · rw [fieldValues_cons hloose, ih.noHost (hstep.seen hs)]
      split
      · rename_i hhost
        have := (hstep.host hhost).1
        rw [hs] at this
        cases this
      · rfl
    · rw [fieldValues_cons hloose]
      split
      · rename_i hhost
        simp [ih.noHost (hstep.host hhost).2]
      · simpa using ih.oneHost
    · rw [fieldValues_cons hloose, hstep.transferEncoding hb1, ih.noTransferEncoding]
      rfl
    · intro v hv
      rw [fieldValues_cons hloose, List.mem_append] at hv
      rcases hv with hv | hv
      · split at hv
        · rename_i hcl
          rw [List.mem_singleton] at hv
          rw [hv, hstep.contentLength hb1 hcl]
        · cases hv
      · exact ih.zeroLength v hv

/-! ## The lines of a head -/

/-- A head ends at its first CRLFCRLF. -/
def IsHead (head : Bytes) : Prop := ∃ p, FirstAt crlfcrlf head p ∧ p + 4 = head.length

/-- A head is a request line, field lines that are not empty, and the blank line. -/
theorem splitCrlf_isHead {head : Bytes} (h : IsHead head) :
    ∃ reqline ls, splitCrlf head = reqline :: (ls ++ [[], []]) ∧ ∀ l ∈ ls, l ≠ [] := by
  obtain ⟨p, hp, hlen⟩ := h
  have hsplit : head = head.take p ++ crlfcrlf := by
    have hocc := List.prefix_iff_eq_take.1 hp.occurs
    have h4 : crlfcrlf.length = (head.drop p).length := by rw [List.length_drop]; show 4 = _; omega
    rw [h4, List.take_length] at hocc
    rw [hocc, List.take_append_drop]
  have hlines : splitCrlf head = splitCrlf (head.take p) ++ [[], []] := by
    conv_lhs => rw [hsplit]
    exact splitCrlf_append (head.take p) [13, 10]
  have hall := flatMap_splitCrlf (head.take p)
  cases hs : splitCrlf (head.take p) with
  | nil => exact absurd hs (splitCrlf_ne_nil _)
  | cons reqline ls =>
    refine ⟨reqline, ls, by rw [hlines, hs]; rfl, fun l hl hnil => ?_⟩
    subst hnil
    -- an empty line among them ends a CRLFCRLF before the first one
    obtain ⟨l1, l2, rfl⟩ := List.append_of_mem hl
    obtain ⟨x, hx⟩ : ∃ x, (reqline :: l1).flatMap (· ++ [13, 10]) = x ++ [13, 10] := by
      refine ⟨(reqline :: l1).dropLast.flatMap (· ++ [13, 10]) ++ (reqline :: l1).getLast (by simp), ?_⟩
      conv_lhs => rw [← List.dropLast_append_getLast (l := reqline :: l1) (by simp)]
      rw [List.flatMap_append]
      simp
    have hcat : head.take p ++ [13, 10] = x ++ (crlfcrlf ++ l2.flatMap (· ++ [13, 10])) := by
      rw [← hall, hs, ← List.cons_append, List.flatMap_append, hx]
      simp [crlfcrlf]
    have hhead : head = x ++ (crlfcrlf ++ (l2.flatMap (· ++ [13, 10]) ++ [13, 10])) := by
      rw [hsplit]
      have : crlfcrlf = [13, 10] ++ [13, 10] := rfl
      rw [this, ← List.append_assoc, hcat]
      simp only [List.append_assoc]
      rfl
    have hxlen : x.length < p := by
      have := congrArg List.length hcat
      simp only [List.length_append, List.length_take, List.length_cons, List.length_nil, crlfcrlf] at this
      omega
    refine hp.first x.length hxlen ?_
    rw [hhead, List.drop_left]
    exact List.prefix_append _ _

/-! ## Accepted heads -/

/-- What `readRequest` has checked of a head it accepts. -/
structure Accepted (head : Bytes) (req : Request) : Prop where
  utf8 : isUtf8 head = true
  wellFormed : wellFormedHead head = true
  version : req.version = str "HTTP/1.1" ∨ req.version = str "HTTP/1.0"
  target : req.target.any isControl = false
  fields : fieldLines ⟨req.version == str "HTTP/1.1", [], [], [], false, false⟩ (splitCrlf head).tail =
    some req.fields
  noBody : req.fields.hasBody = false

/-- What `readRequest` reads of a head: everything it has checked, and the request line. -/
structure ReadsAs (head : Bytes) (req : Request) : Prop extends Accepted head req where
  line : requestLine ((splitCrlf head).headD []) = (req.method, req.target, req.version, false)
  method_ne : req.method ≠ []
  target_ne : req.target ≠ []

theorem readRequest_iff {head : Bytes} {req : Request} : readRequest head = .ok req ↔ ReadsAs head req := by
  unfold readRequest
  constructor
  · intro h
    cases hu : fromUtf8 head with
    | none => rw [hu] at h; cases h
    | some text =>
      obtain ⟨hutf, rfl⟩ := fromUtf8_eq_some.1 hu
      rw [hu] at h
      simp only at h
      generalize hr : requestLine ((splitCrlf head).headD []) = r at h
      obtain ⟨method, target, version, extra⟩ := r
      simp only at h
      split at h
      · cases h
      rename_i hwf
      split at h
      · cases h
      rename_i hextra
      split at h
      · cases h
      rename_i hempty
      split at h
      · cases h
      rename_i hver
      split at h
      · cases h
      rename_i htarget
      cases hl : fieldLines ⟨version == str "HTTP/1.1", [], [], [], false, false⟩ (splitCrlf head).tail with
      | none => rw [hl] at h; cases h
      | some fields =>
        rw [hl] at h
        simp only at h
        split at h
        · cases h
        · rename_i hbody
          cases h
          simp only [Bool.or_eq_true, List.isEmpty_iff, not_or] at hempty
          rw [Bool.not_eq_true] at hextra
          refine ⟨⟨hutf, by simpa using hwf, ?_, by simpa using htarget, hl, by simpa using hbody⟩, by rw [hr, hextra],
            hempty.1.1, hempty.1.2⟩
          simp only [Bool.and_eq_true, bne_iff_ne, ne_eq, not_and, not_not] at hver
          by_cases h1 : version = str "HTTP/1.1"
          · exact .inl h1
          · exact .inr (hver h1)
  · intro h
    have hversion : req.version.isEmpty = false ∧
        (req.version != str "HTTP/1.1" && req.version != str "HTTP/1.0") = false := by
      rcases h.version with hv | hv <;> rw [hv] <;> decide
    have hmethod : req.method.isEmpty = false := by simpa using h.method_ne
    have htarget : req.target.isEmpty = false := by simpa using h.target_ne
    simp only [fromUtf8_eq_some.2 ⟨h.utf8, rfl⟩, h.wellFormed, h.line, hmethod, htarget, hversion, h.target, h.fields,
      h.noBody, Bool.not_true, Bool.or_self, Bool.false_eq_true, if_false]

theorem readRequest_ok {head : Bytes} {req : Request} (h : readRequest head = .ok req) : Accepted head req :=
  (readRequest_iff.1 h).toAccepted

/-- No space stands in a request target. -/
theorem ReadsAs.noSpace {head : Bytes} {req : Request} (h : ReadsAs head req) : 32 ∉ req.target := by
  have hline := h.line
  unfold requestLine at hline
  simp only [Prod.mk.injEq] at hline
  intro hm
  cases ht : (((splitCrlf head).headD []).splitOn 32)[1]? with
  | none =>
    rw [ht] at hline
    exact absurd hm (by rw [← hline.2.1]; exact List.not_mem_nil)
  | some part =>
    rw [ht] at hline
    refine (mem_splitOn (List.mem_of_getElem? ht)).2 ?_
    rw [← hline.2.1] at hm
    exact hm

/-- A response that keeps the connection answers an accepted head. -/
theorem readRequest_of_keepAlive {fs : FileSys} {head : Bytes} {vhosts : Vhosts} {wantKa redirectHttps : Bool}
    {sni : Option Str} (h : (handleRequest fs head vhosts wantKa redirectHttps sni).result = some true) :
    ∃ req, readRequest head = .ok req := by
  unfold handleRequest at h
  cases hr : readRequest head with
  | ok req => exact ⟨req, rfl⟩
  | error e => rw [hr] at h; simp [say] at h

/-- No request that keeps the connection can hide a break, a header or a body: its head reads the
same to a lenient reader, and declares no body. -/
theorem cleanlyFramed_of_keepAlive (fs : FileSys) (head : Bytes) (vhosts : Vhosts) (wantKa redirectHttps : Bool)
    (sni : Option Str) (hh : IsHead head)
    (hka : (handleRequest fs head vhosts wantKa redirectHttps sni).result = some true) : CleanlyFramed head := by
  obtain ⟨req, hreq⟩ := readRequest_of_keepAlive hka
  have hacc := readRequest_ok hreq
  obtain ⟨reqline, ls, hlines, hne⟩ := splitCrlf_isHead hh
  have hfields := hacc.fields
  rw [hlines, List.tail_cons, fieldLines_blank _ _ _ hne] at hfields
  have hread := (fieldsRead_of_foldlM ls _ _ hfields hacc.noBody).1
  have htail : (splitCrlf head).tail = ls ++ [[], []] := by rw [hlines]; rfl
  have hval : ∀ name, fieldValues name (splitCrlf head).tail = fieldValues name ls := by
    intro name
    rw [htail, fieldValues, List.filterMap_append, List.filterMap_append]
    show _ ++ [] = _
    rw [List.append_nil]
    rfl
  refine ⟨splitAnyBreak_eq hacc.wellFormed, fun line hl => ?_, ?_, ?_, ?_⟩
  · rw [htail, List.mem_append] at hl
    rcases hl with hl | hl
    · exact hread.unfolded line hl
    · have : line = [] := by simpa using hl
      rw [this]; rfl
  · rw [hval]; exact hread.oneHost
  · rw [hval]; exact hread.noTransferEncoding
  · rw [hval]; exact hread.zeroLength

/-- A request with an explicit empty body, for a host that is not configured. -/
theorem cleanlyFramed_zero_length :
    let fs : FileSys := ⟨fun _ => none, fun _ => none, fun _ => none⟩
    let vhosts : Vhosts := ⟨∅, str "443", str "80", ErrorPages.new []⟩
    let head := str "GET / HTTP/1.1\r\nHost: a.example\r\nContent-Length:\t0 \r\n\r\n"
    IsHead head ∧ (handleRequest fs head vhosts true false none).result = some true ∧ CleanlyFramed head :=
  have hh := ⟨51, indexOf?_some.1 (by decide +kernel), by decide +kernel⟩
  have hka := by decide +kernel
  ⟨hh, hka, cleanlyFramed_of_keepAlive _ _ _ true false none hh hka⟩

end BareServer
