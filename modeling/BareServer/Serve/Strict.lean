/-
How strictly a head's field lines are read. Blanks and control bytes are refused in a field name, and
any white space is taken off a value. So the lines of an accepted head keep to the grammar unless a name
has a delimiter or a byte outside ASCII in it, or a Host or Content-Length value has white space outside
ASCII at an end.
-/
import BareServer.Config.ParseSpec
import BareServer.Serve.Lines
import BareServer.Serve.Values
import Mathlib.Data.List.DropRight

namespace BareServer

open BareServer.Lib

/-! ## The grammar -/

/-- The bytes of a token. -/
def isTchar (b : UInt8) : Bool := isAlnum b || (str "!#$%&'*+-.^_`|~").contains b

/-- The delimiters between tokens. -/
def delimiters : Str := str "\"(),/:;<=>?@[\\]\x7b\x7d"

/-- A value without the SP and HTAB around it. -/
def stripBlanks (s : Str) : Str := (s.dropWhile isBlank).rdropWhile isBlank

/-- Field lines read by the grammar: each is a token, a colon and a value without control bytes, and the
host and the length are the values with SP and HTAB stripped. -/
structure StrictLines (ls : List Bytes) (hostHdr : Str) : Prop where
  line : ∀ l ∈ ls, ∃ name value, splitOnce l (str ":") = some (name, value) ∧ name ≠ [] ∧
    (∀ b ∈ name, isTchar b = true) ∧ ∀ b ∈ value, isControl b = true → b = 9
  host : ∀ l ∈ ls, ∀ name value, splitOnce l (str ":") = some (name, value) → eqIgnoreCase name (str "host") = true →
    hostHdr = stripBlanks value
  contentLength : ∀ l ∈ ls, ∀ name value, splitOnce l (str ":") = some (name, value) →
    eqIgnoreCase name (str "content-length") = true → stripBlanks value = str "0"

/-- White space outside ASCII stands at an end of a value. -/
def WideEnd (s : Str) : Prop := ∃ e, WideSpace e ∧ (e <+: stripBlanks s ∨ e <:+ stripBlanks s)

/-- Field lines without what the code lets through. -/
structure PlainLines (ls : List Bytes) : Prop where
  name : ∀ l ∈ ls, ∀ name value, splitOnce l (str ":") = some (name, value) →
    ∀ b ∈ name, b < 0x80 ∧ b ∉ delimiters
  value : ∀ l ∈ ls, ∀ name value, splitOnce l (str ":") = some (name, value) →
    eqIgnoreCase name (str "host") = true ∨ eqIgnoreCase name (str "content-length") = true → ¬ WideEnd value

/-! ## Names -/

theorem isTchar_iff {b : UInt8} (hc : isControl b = false) (hs : b ≠ 32) :
    isTchar b = true ↔ b < 0x80 ∧ b ∉ delimiters :=
  forall_byte (P := fun b => isControl b = false → b ≠ 32 → (isTchar b = true ↔ b < 0x80 ∧ b ∉ delimiters))
    (by decide +kernel) b hc hs

/-! ## Values -/

theorem stripBlanks_split (s : Str) : ∃ u w, Spaces u ∧ Spaces w ∧ s = u ++ stripBlanks s ++ w := by
  refine ⟨s.takeWhile isBlank, (s.dropWhile isBlank).rtakeWhile isBlank, spaces_of_blanks fun b hb => ?_,
    spaces_of_blanks fun b hb => ?_, ?_⟩
  · exact List.mem_takeWhile_imp hb
  · exact List.mem_rtakeWhile_imp hb
  · rw [stripBlanks, List.append_assoc, List.rdropWhile_append_rtakeWhile, List.takeWhile_append_dropWhile]

theorem trim_stripBlanks (s : Str) : trim (stripBlanks s) = trim s := by
  obtain ⟨u, w, hu, hw, hs⟩ := stripBlanks_split s
  conv_rhs => rw [hs, trim_append_right hw, trim_append_left hu]

/-- A stripped value neither begins nor ends with a blank. -/
theorem stripBlanks_ends {s : Str} {b : UInt8} (h : [b] <+: stripBlanks s ∨ [b] <:+ stripBlanks s) : isBlank b = false := by
  rcases h with h | ⟨t, ht⟩
  · obtain ⟨t, ht⟩ := h.trans (List.rdropWhile_prefix isBlank (s.dropWhile isBlank))
    have hhead := List.head?_dropWhile_not isBlank s
    rw [← ht] at hhead
    exact hhead
  · have hne : stripBlanks s ≠ [] := by
      rw [← ht]
      exact List.append_ne_nil_of_right_ne_nil _ (List.cons_ne_nil _ _)
    have hlast := List.rdropWhile_last_not isBlank (s.dropWhile isBlank) hne
    have hget : (stripBlanks s).getLast? = some b := by rw [← ht, List.getLast?_concat]
    have hb : (stripBlanks s).getLast hne = b := Option.some.inj ((List.getLast?_eq_some_getLast hne).symm.trans hget)
    rw [show (List.rdropWhile isBlank (s.dropWhile isBlank)).getLast hne = b from hb] at hlast
    simpa using hlast

/-- Of the ASCII white space, only blanks stand in text where HTAB is the only control byte. -/
theorem isBlank_of_isSpace1 {b : UInt8} (h : isSpace1 b = true) (hc : isControl b = true → b = 9) : isBlank b = true := by
  have hne : b ≠ 9 → isControl b = false := fun hb => Bool.eq_false_iff.2 fun h => hb (hc h)
  simp only [isSpace1, Bool.or_eq_true, Bool.and_eq_true, decide_eq_true_eq, beq_iff_eq, UInt8.le_iff_toNat_le,
    UInt8.reduceToNat] at h
  simp only [isBlank, Bool.or_eq_true, beq_iff_eq]
  simp only [isControl, Bool.or_eq_false_iff, decide_eq_false_iff_not, UInt8.lt_iff_toNat_lt, UInt8.reduceToNat] at hne
  by_cases hb : b = 9
  · exact .inr hb
  · rcases h with h | h
    · exact absurd (hne hb).1 (by omega)
    · exact .inl h

/-- Where HTAB is the only control byte, trimming takes off more than blanks exactly at wide white space. -/
theorem trim_eq_stripBlanks {s : Str} (h : ∀ b ∈ s, isControl b = true → b = 9) :
    trim s = stripBlanks s ↔ ¬ WideEnd s := by
  have hmem : ∀ {e : Str} {b : UInt8}, b ∈ e → e <+: stripBlanks s ∨ e <:+ stripBlanks s → b ∈ s := by
    intro e b hb he
    obtain ⟨u, w, -, -, hs⟩ := stripBlanks_split s
    have hb : b ∈ stripBlanks s := he.elim (fun he => he.subset hb) fun he => he.subset hb
    rw [hs]
    simp [hb]
  rw [← trim_stripBlanks, trim_eq_self_iff]
  constructor
  · rintro hall ⟨e, he, hend⟩
    obtain ⟨hpre, hsuf⟩ := hall e (.inr he)
    exact hend.elim hpre hsuf
  · intro hnot e he
    have hends : e <+: stripBlanks s ∨ e <:+ stripBlanks s → False := by
      intro hend
      rcases he with ⟨a, rfl, ha⟩ | hwide
      · have hblank := isBlank_of_isSpace1 ha (h a (hmem List.mem_cons_self hend))
        rw [stripBlanks_ends hend] at hblank
        cases hblank
      · exact hnot ⟨e, hwide, hend⟩
    exact ⟨fun hpre => hends (.inl hpre), fun hsuf => hends (.inr hsuf)⟩

/-! ## Accepted heads -/

/-- A field line of an accepted head: a name without blanks and control bytes, a colon, and a value in which
HTAB is the only control byte. -/
structure LineParts (l name value : Bytes) : Prop where
  split : splitOnce l (str ":") = some (name, value)
  field : fieldOf l = some (name, trim value)
  ne_nil : name ≠ []
  visible : ∀ b ∈ name, isControl b = false ∧ b ≠ 32
  tabs : ∀ b ∈ value, isControl b = true → b = 9

theorem lineParts {l : Bytes} (htext : TextLine l) {name v : Str} (hf : fieldOf l = some (name, v)) :
    ∃ value, LineParts l name value := by
  obtain ⟨value, hsplit, rfl, hne, hblank⟩ := fieldOf_split hf
  obtain ⟨hname, hvalue⟩ := splitOnce_subset hsplit
  refine ⟨value, hsplit, hf, hne, fun b hb => ?_, fun b hb => htext.tabs b (hvalue hb)⟩
  have hb' := hblank b hb
  simp only [isBlank, Bool.or_eq_false_iff, beq_eq_false_iff_ne, ne_eq] at hb'
  exact ⟨Bool.eq_false_iff.2 fun hc => hb'.2 (htext.tabs b (hname hb) hc), hb'.1⟩

/-- The host and the lengths an accepted head was read to have. -/
theorem trims_of_readRequest {head : Bytes} {req : Request} (h : readRequest head = .ok req) :
    ∀ l ∈ heading (splitCrlf head).tail, ∃ name value, LineParts l name value ∧
      (eqIgnoreCase name (str "host") = true → req.fields.hostHdr = trim value) ∧
      (eqIgnoreCase name (str "content-length") = true → trim value = str "0") := by
  obtain ⟨reqline, ls, hsplit, -, htext, hread⟩ := lines_of_readRequest h
  have hfields := hread.fields
  rw [fieldLines_heading] at hfields
  rw [show (splitCrlf head).tail = ls by rw [hsplit]; rfl]
  have hone := (fieldsRead_of_foldlM _ _ _ hfields hread.noBody).1
  intro l hl
  obtain ⟨name, v, hf⟩ := fieldOf_of_foldlM hfields l hl
  obtain ⟨value, hparts⟩ := lineParts (htext l (List.mem_cons_of_mem _ (List.takeWhile_subset _ hl))) hf
  refine ⟨name, value, hparts, fun hhost => ?_, fun hlen => hone.zeroLength _ (mem_fieldValues hl hparts.field hlen)⟩
  have hmem := mem_fieldValues hl hparts.field hhost
  rw [(says_lines hfields).hostHdr]
  have hlength := hone.oneHost
  generalize fieldValues (str "host") (heading ls) = vs at hmem hlength
  match vs, hmem, hlength with
  | [x], hmem, _ => exact (List.mem_singleton.1 hmem).symm

/-- The lines of an accepted head keep to the grammar exactly when no name has a delimiter or a byte outside
ASCII, and no host or length has white space outside ASCII at an end. -/
theorem strict_iff {head : Bytes} {req : Request} (h : readRequest head = .ok req) :
    StrictLines (heading (splitCrlf head).tail) req.fields.hostHdr ↔ PlainLines (heading (splitCrlf head).tail) := by
  have hlines := trims_of_readRequest h
  have huniq : ∀ {l name value name' value' : Bytes}, LineParts l name value →
      splitOnce l (str ":") = some (name', value') → name' = name ∧ value' = value := by
    intro l name value name' value' hparts hs
    rw [hparts.split] at hs
    cases hs
    exact ⟨rfl, rfl⟩
  constructor
  · intro hstrict
    constructor
    · intro l hl name value hs b hb
      obtain ⟨_, _, hparts, -, -⟩ := hlines l hl
      obtain ⟨_, _, hs', -, htoken, -⟩ := hstrict.line l hl
      obtain ⟨rfl, rfl⟩ := huniq hparts hs
      obtain ⟨rfl, rfl⟩ := huniq hparts hs'
      obtain ⟨hc, hspace⟩ := hparts.visible b hb
      exact (isTchar_iff hc hspace).1 (htoken b hb)
    · intro l hl name value hs hname
      obtain ⟨_, _, hparts, hhost, hlen⟩ := hlines l hl
      obtain ⟨rfl, rfl⟩ := huniq hparts hs
      refine (trim_eq_stripBlanks hparts.tabs).1 ?_
      rcases hname with hname | hname
      · rw [← hhost hname, hstrict.host l hl _ _ hs hname]
      · rw [hlen hname, hstrict.contentLength l hl _ _ hs hname]
  · intro hplain
    refine ⟨fun l hl => ?_, fun l hl name value hs hname => ?_, fun l hl name value hs hname => ?_⟩
    · obtain ⟨name, value, hparts, -, -⟩ := hlines l hl
      refine ⟨name, value, hparts.split, hparts.ne_nil, fun b hb => ?_, hparts.tabs⟩
      obtain ⟨hc, hspace⟩ := hparts.visible b hb
      exact (isTchar_iff hc hspace).2 (hplain.name l hl name value hparts.split b hb)
    · obtain ⟨_, _, hparts, hhost, -⟩ := hlines l hl
      obtain ⟨rfl, rfl⟩ := huniq hparts hs
      exact (hhost hname).trans ((trim_eq_stripBlanks hparts.tabs).2 (hplain.value l hl _ _ hs (.inl hname)))
    · obtain ⟨_, _, hparts, -, hlen⟩ := hlines l hl
      obtain ⟨rfl, rfl⟩ := huniq hparts hs
      exact ((trim_eq_stripBlanks hparts.tabs).2 (hplain.value l hl _ _ hs (.inr hname))).symm.trans (hlen hname)

/-- The head of a GET with one line after its host. -/
def lineHead (line : Str) : Bytes := str "GET / HTTP/1.1\r\nHost: a.example\r\n" ++ line ++ str "\r\n\r\n"

/-- An empty body is declared by the grammar. -/
theorem strict_zero_length : ∃ req, readRequest (lineHead (str "Content-Length:\t0 ")) = .ok req ∧
    StrictLines (heading (splitCrlf (lineHead (str "Content-Length:\t0 "))).tail) req.fields.hostHdr := by
  have hread : (readRequest (lineHead (str "Content-Length:\t0 "))).toOption.any (fun _ => true) = true := by decide +kernel
  have hlines : heading (splitCrlf (lineHead (str "Content-Length:\t0 "))).tail =
      [str "Host: a.example", str "Content-Length:\t0 "] := by decide +kernel
  have hhost : splitOnce (str "Host: a.example") (str ":") = some (str "Host", str " a.example") ∧
      (∀ b ∈ str "Host", b < 0x80 ∧ b ∉ delimiters) ∧ (∀ b ∈ str " a.example", isControl b = true → b = 9) ∧
      trim (str " a.example") = stripBlanks (str " a.example") := by decide +kernel
  have hlen : splitOnce (str "Content-Length:\t0 ") (str ":") = some (str "Content-Length", str "\t0 ") ∧
      (∀ b ∈ str "Content-Length", b < 0x80 ∧ b ∉ delimiters) ∧ (∀ b ∈ str "\t0 ", isControl b = true → b = 9) ∧
      trim (str "\t0 ") = stripBlanks (str "\t0 ") := by decide +kernel
  obtain ⟨req, hreq, -⟩ := ok_of_any hread
  refine ⟨req, hreq, (strict_iff hreq).2 ?_⟩
  rw [hlines]
  constructor
  · simp only [List.mem_cons, List.not_mem_nil, or_false]
    rintro l (rfl | rfl) name value hs
    · cases hhost.1.symm.trans hs
      exact hhost.2.1
    · cases hlen.1.symm.trans hs
      exact hlen.2.1
  · simp only [List.mem_cons, List.not_mem_nil, or_false]
    rintro l (rfl | rfl) name value hs -
    · cases hhost.1.symm.trans hs
      exact (trim_eq_stripBlanks hhost.2.2.1).1 hhost.2.2.2
    · cases hlen.1.symm.trans hs
      exact (trim_eq_stripBlanks hlen.2.2.1).1 hlen.2.2.2

/-- A request with this line is accepted and keeps its connection, and its lines are not strict. -/
def PassedOver (line : Bytes) : Prop :=
  ∃ req, readRequest (lineHead line) = .ok req ∧
    (handleRequest ⟨fun _ => none, fun _ => none, fun _ => none⟩ (lineHead line)
      ⟨∅, str "443", str "80", ErrorPages.new []⟩ true false none).result = some true ∧
    ¬ StrictLines (heading (splitCrlf (lineHead line)).tail) req.fields.hostHdr

/-- A no-break space hides a length of five in its name, and stands in front of a length of zero. -/
theorem no_break_space_accepted :
    PassedOver (str "Content-Length\u00a0: 5") ∧ PassedOver (str "Content-Length: \u00a00") := by
  have hname : (readRequest (lineHead (str "Content-Length\u00a0: 5"))).toOption.any (fun _ => true) = true ∧
      str "Content-Length\u00a0: 5" ∈ heading (splitCrlf (lineHead (str "Content-Length\u00a0: 5"))).tail ∧
      splitOnce (str "Content-Length\u00a0: 5") (str ":") = some (str "Content-Length\u00a0", str " 5") ∧
      0xC2 ∈ str "Content-Length\u00a0" ∧ isTchar 0xC2 = false := by
    decide +kernel
  have hvalue : (readRequest (lineHead (str "Content-Length: \u00a00"))).toOption.any (fun _ => true) = true ∧
      str "Content-Length: \u00a00" ∈ heading (splitCrlf (lineHead (str "Content-Length: \u00a00"))).tail ∧
      splitOnce (str "Content-Length: \u00a00") (str ":") = some (str "Content-Length", str " \u00a00") ∧
      eqIgnoreCase (str "Content-Length") (str "content-length") = true ∧ stripBlanks (str " \u00a00") ≠ str "0" := by
    decide +kernel
  constructor
  · obtain ⟨hread, hmem, hsplit, hbyte, htoken⟩ := hname
    obtain ⟨req, hreq, -⟩ := ok_of_any hread
    refine ⟨req, hreq, by decide +kernel, fun hstrict => ?_⟩
    obtain ⟨name, value, hs, -, htchar, -⟩ := hstrict.line _ hmem
    cases hsplit.symm.trans hs
    rw [htchar _ hbyte] at htoken
    cases htoken
  · obtain ⟨hread, hmem, hsplit, hlen, hne⟩ := hvalue
    obtain ⟨req, hreq, -⟩ := ok_of_any hread
    exact ⟨req, hreq, by decide +kernel, fun hstrict => hne (hstrict.contentLength _ hmem _ _ hsplit hlen)⟩

end BareServer
