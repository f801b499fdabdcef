/-
A head as its lines. What `handle_request` reads of a head is what it reads of its lines, so a head with
some lines exchanged for others is read line by line too.
-/
import BareServer.Serve.Values

namespace BareServer

open BareServer.Lib

/-! ## Joining -/

/-- Lines joined by CRLFs. -/
def joinCrlf : List Bytes → Bytes
  | [] => []
  | [l] => l
  | l :: l' :: ls => l ++ 13 :: 10 :: joinCrlf (l' :: ls)

theorem joinCrlf_cons {ls : List Bytes} (h : ls ≠ []) (l : Bytes) : joinCrlf (l :: ls) = l ++ 13 :: 10 :: joinCrlf ls := by
  cases ls with
  | nil => exact absurd rfl h
  | cons l' ls => rfl

theorem joinCrlf_splitCrlf (s : Bytes) : joinCrlf (splitCrlf s) = s := by
  have hend : ∀ ls : List Bytes, ls ≠ [] → ls.flatMap (· ++ [13, 10]) = joinCrlf ls ++ [13, 10] := by
    intro ls
    induction ls with
    | nil => exact fun h => absurd rfl h
    | cons l ls ih =>
      intro _
      cases ls with
      | nil => simp [joinCrlf]
      | cons l' ls => rw [List.flatMap_cons, ih (List.cons_ne_nil _ _), joinCrlf_cons (List.cons_ne_nil _ _)]; simp
  exact List.append_cancel_right ((hend _ (splitCrlf_ne_nil s)).symm.trans (flatMap_splitCrlf s))

/-- Lines without a CR are read back as they were joined. -/
theorem splitCrlf_joinCrlf {ls : List Bytes} (hne : ls ≠ []) (h : ∀ l ∈ ls, 13 ∉ l) : splitCrlf (joinCrlf ls) = ls := by
  induction ls with
  | nil => exact absurd rfl hne
  | cons l ls ih =>
    have hl := splitCrlf_singleton (.inl (h l List.mem_cons_self))
    cases ls with
    | nil => exact hl
    | cons l' ls =>
      rw [joinCrlf_cons (List.cons_ne_nil _ _), splitCrlf_append, hl,
        ih (List.cons_ne_nil _ _) fun x hx => h x (List.mem_cons_of_mem _ hx)]
      rfl

/-! ## Lines of text -/

/-- A line a head may have: text in which HTAB is the only control byte. -/
structure TextLine (l : Bytes) : Prop where
  utf8 : isUtf8 l = true
  tabs : ∀ b ∈ l, isControl b = true → b = 9

theorem TextLine.no_cr {l : Bytes} (h : TextLine l) : 13 ∉ l := fun hm => absurd (h.tabs 13 hm (by decide)) (by decide)

theorem textLine_nil : TextLine [] := ⟨rfl, nofun⟩

/-- The lines that end a head: the blank one, and what is left behind its CRLF. -/
theorem textLine_blank : ∀ l ∈ ([[], []] : List Bytes), TextLine l := by
  intro l hl
  have : l = [] := by simpa using hl
  exact this ▸ textLine_nil

/-- Text without control bytes makes a line. -/
theorem textLine_of_clean {l : Bytes} (hc : Clean l) (hu : isUtf8 l = true) : TextLine l :=
  ⟨hu, fun b hb h => by rw [hc b hb] at h; cases h⟩

/-- The bytes `wellFormedHead` passes outside line breaks. -/
theorem passes_iff {b : UInt8} : (b == 13 || b == 10 || b == 0x7F || decide (b < 0x20) && b != 9) = false ↔
    (isControl b = true → b = 9) := by
  simp only [isControl, Bool.or_eq_false_iff, Bool.and_eq_false_iff, decide_eq_false_iff_not, beq_eq_false_iff_ne, ne_eq,
    bne_eq_false_iff_eq, Bool.or_eq_true, decide_eq_true_eq, beq_iff_eq, UInt8.lt_iff_toNat_lt, ← UInt8.toNat_inj,
    UInt8.reduceToNat]
  omega

theorem wellFormedHead_append {l rest : Bytes} (h : ∀ b ∈ l, isControl b = true → b = 9) :
    wellFormedHead (l ++ 13 :: 10 :: rest) = wellFormedHead rest ∧ wellFormedHead l = true := by
  induction l with
  | nil => exact ⟨rfl, rfl⟩
  | cons b l ih =>
    have hb := passes_iff.2 (h b List.mem_cons_self)
    have hne : b ≠ 13 := by
      rintro rfl
      cases hb
    have ih := ih fun c hc => h c (List.mem_cons_of_mem _ hc)
    rw [List.cons_append, wellFormedHead.eq_3 _ _ fun _ he => absurd he hne, wellFormedHead.eq_3 _ _ fun _ he => absurd he hne,
      hb, if_neg Bool.false_ne_true, if_neg Bool.false_ne_true]
    exact ih

theorem wellFormedHead_joinCrlf {ls : List Bytes} (h : ∀ l ∈ ls, TextLine l) : wellFormedHead (joinCrlf ls) = true := by
  induction ls with
  | nil => rfl
  | cons l ls ih =>
    have hl := (h l List.mem_cons_self).tabs
    cases ls with
    | nil => exact (@wellFormedHead_append l [] hl).2
    | cons l' ls =>
      rw [joinCrlf_cons (List.cons_ne_nil _ _), (wellFormedHead_append hl).1]
      exact ih fun x hx => h x (List.mem_cons_of_mem _ hx)

theorem isUtf8_joinCrlf {ls : List Bytes} (h : ∀ l ∈ ls, TextLine l) : isUtf8 (joinCrlf ls) = true := by
  induction ls with
  | nil => rfl
  | cons l ls ih =>
    have hl := (h l List.mem_cons_self).utf8
    cases ls with
    | nil => exact hl
    | cons l' ls =>
      rw [joinCrlf_cons (List.cons_ne_nil _ _), isUtf8_append hl]
      exact ih fun x hx => h x (List.mem_cons_of_mem _ hx)

theorem isUtf8_of_joinCrlf {ls : List Bytes} (h : isUtf8 (joinCrlf ls) = true) : ∀ l ∈ ls, isUtf8 l = true := by
  induction ls with
  | nil => exact nofun
  | cons l ls ih =>
    cases ls with
    | nil => exact fun x hx => by rw [List.mem_singleton.1 hx]; exact h
    | cons l' ls =>
      rw [joinCrlf_cons (List.cons_ne_nil _ _)] at h
      obtain ⟨hl, hrest⟩ := isUtf8_cut (by decide) h
      have hrest := (@isUtf8_cut [] _ 10 (by decide) hrest).2
      rintro x (_ | ⟨_, hx⟩)
      · exact hl
      · exact ih hrest x hx

theorem tabs_of_wellFormedHead {s : Bytes} (h : wellFormedHead s = true) :
    ∀ l ∈ splitCrlf s, ∀ b ∈ l, isControl b = true → b = 9 := by
  induction s using splitCrlf.induct with
  | case1 =>
    intro l hl
    rw [splitCrlf, List.mem_singleton] at hl
    subst hl
    exact fun b hb => absurd hb List.not_mem_nil
  | case2 s ih =>
    rw [wellFormedHead] at h
    rw [splitCrlf]
    rintro l (_ | ⟨_, hl⟩)
    · exact fun b hb => absurd hb List.not_mem_nil
    · exact ih h l hl
  | case3 b s hcrlf ih =>
    rw [wellFormedHead.eq_3 _ _ hcrlf] at h
    split at h
    · cases h
    rename_i hb
    have hb := passes_iff.1 (Bool.eq_false_iff.2 hb)
    have ih := ih h
    rw [splitCrlf.eq_3 _ _ hcrlf]
    cases hs : splitCrlf s with
    | nil => exact absurd hs (splitCrlf_ne_nil s)
    | cons l ls =>
      rw [hs] at ih
      rintro x (_ | ⟨_, hx⟩)
      · rintro c (_ | ⟨_, hc⟩)
        · exact hb
        · exact ih l List.mem_cons_self c hc
      · exact ih x (List.mem_cons_of_mem _ hx)

/-! ## Reading lines -/

/-- What is read of a request line and of the lines after it. -/
structure LinesRead (reqline : Bytes) (ls : List Bytes) (req : Request) : Prop where
  line : requestLine reqline = (req.method, req.target, req.version, false)
  method_ne : req.method ≠ []
  target_ne : req.target ≠ []
  version : req.version = str "HTTP/1.1" ∨ req.version = str "HTTP/1.0"
  target : req.target.any isControl = false
  fields : fieldLines ⟨req.version == str "HTTP/1.1", [], [], [], false, false⟩ ls = some req.fields
  noBody : req.fields.hasBody = false

/-- Lines of text are read one by one. -/
theorem readRequest_joinCrlf {reqline : Bytes} {ls : List Bytes} (h : ∀ l ∈ reqline :: ls, TextLine l) (req : Request) :
    readRequest (joinCrlf (reqline :: ls)) = .ok req ↔ LinesRead reqline ls req := by
  have hsplit := splitCrlf_joinCrlf (List.cons_ne_nil reqline ls) fun l hl => (h l hl).no_cr
  rw [readRequest_iff]
  constructor
  · rintro ⟨⟨-, -, hversion, htarget, hfields, hbody⟩, hline, hmethod, hne⟩
    rw [hsplit] at hfields hline
    exact ⟨hline, hmethod, hne, hversion, htarget, hfields, hbody⟩
  · rintro ⟨hline, hmethod, hne, hversion, htarget, hfields, hbody⟩
    refine ⟨⟨isUtf8_joinCrlf h, wellFormedHead_joinCrlf h, hversion, htarget, ?_, hbody⟩, ?_, hmethod, hne⟩
    · rw [hsplit]
      exact hfields
    · rw [hsplit]
      exact hline

/-- An accepted head is a request line and further lines of text. -/
theorem lines_of_readRequest {head : Bytes} {req : Request} (h : readRequest head = .ok req) :
    ∃ reqline ls, splitCrlf head = reqline :: ls ∧ head = joinCrlf (reqline :: ls) ∧
      (∀ l ∈ reqline :: ls, TextLine l) ∧ LinesRead reqline ls req := by
  have hread := readRequest_iff.1 h
  cases hs : splitCrlf head with
  | nil => exact absurd hs (splitCrlf_ne_nil head)
  | cons reqline ls =>
    have hjoin : joinCrlf (reqline :: ls) = head := by rw [← hs, joinCrlf_splitCrlf]
    have htext : ∀ l ∈ reqline :: ls, TextLine l := fun l hl =>
      ⟨isUtf8_of_joinCrlf (hjoin ▸ hread.utf8) l hl, tabs_of_wellFormedHead hread.wellFormed l (hs ▸ hl)⟩
    rw [← hjoin] at h
    exact ⟨reqline, ls, rfl, hjoin.symm, htext, (readRequest_joinCrlf htext req).1 h⟩

/-! ## A request line for a target -/

/-- The request line of a GET. -/
def getLine (target : Str) : Bytes := str "GET " ++ target ++ str " HTTP/1.1"

theorem requestLine_getLine {target : Str} (hspace : 32 ∉ target) :
    requestLine (getLine target) = (str "GET", target, str "HTTP/1.1", false) := by
  have htexts : str "GET " = str "GET" ++ [32] ∧ str " HTTP/1.1" = 32 :: str "HTTP/1.1" ∧ 32 ∉ str "GET" ∧
      32 ∉ str "HTTP/1.1" := by decide
  have hsplit : (getLine target).splitOn 32 = [str "GET", target, str "HTTP/1.1"] := by
    rw [getLine, htexts.1, htexts.2.1, List.append_assoc, List.append_assoc, List.singleton_append,
      List.splitOn_append_cons_self_of_not_mem htexts.2.2.1, List.splitOn_append_cons_self_of_not_mem hspace,
      List.splitOn_eq_singleton htexts.2.2.2]
  rw [requestLine, hsplit]
  rfl

theorem textLine_getLine {target : Str} (hclean : Clean target) (htext : isUtf8 target = true) :
    TextLine (getLine target) := by
  have htexts : Clean (str "GET ") ∧ Clean (str " HTTP/1.1") ∧ isUtf8 (str "GET ") = true ∧
      isUtf8 (str " HTTP/1.1") = true := by decide
  refine textLine_of_clean (clean_append.2 ⟨clean_append.2 ⟨htexts.1, hclean⟩, htexts.2.1⟩) ?_
  rw [getLine, List.append_assoc, isUtf8_append htexts.2.2.1, isUtf8_append htext]
  exact htexts.2.2.2

/-- Lines that give some fields under HTTP/1.1 are read behind a GET of any target a request line carries. -/
theorem readRequest_getLine {target : Str} {ls : List Bytes} {f : Fields} (hne : target ≠ []) (hclean : Clean target)
    (hspace : 32 ∉ target) (htext : isUtf8 target = true) (hls : ∀ l ∈ ls, TextLine l)
    (hf : fieldLines ⟨true, [], [], [], false, false⟩ ls = some f) (hbody : f.hasBody = false) :
    readRequest (joinCrlf (getLine target :: ls)) = .ok ⟨str "GET", target, str "HTTP/1.1", f⟩ := by
  have hall : ∀ l ∈ getLine target :: ls, TextLine l := by
    rintro l (_ | ⟨_, hl⟩)
    · exact textLine_getLine hclean htext
    · exact hls l hl
  have hget : str "GET" ≠ [] := by decide
  refine (readRequest_joinCrlf hall _).2 ⟨requestLine_getLine hspace, hget, hne, .inl rfl, clean_iff.1 hclean, ?_, hbody⟩
  show fieldLines ⟨str "HTTP/1.1" == str "HTTP/1.1", [], [], [], false, false⟩ ls = some f
  rw [beq_self_eq_true]
  exact hf

/-- The host comes from a line that names it, or was there before. -/
theorem host_of_fieldLines {f f' : Fields} {ls : List Bytes} (h : fieldLines f ls = some f') :
    f'.hostHdr = f.hostHdr ∨ ∃ l ∈ ls, l ≠ [] ∧ ∃ name, fieldOf l = some (name, f'.hostHdr) ∧
      eqIgnoreCase name (str "host") = true := by
  rw [fieldLines_heading] at h
  have hhost := (says_lines h).hostHdr
  rcases List.eq_nil_or_concat (fieldValues (str "host") (heading ls)) with hnone | ⟨vs, v, hlast⟩
  · exact .inl (by rw [hhost, hnone]; rfl)
  · rw [List.concat_eq_append] at hlast
    have hv : f'.hostHdr = v := by rw [hhost, hlast, getLastD_append]; rfl
    have hmem : v ∈ fieldValues (str "host") (heading ls) := by
      rw [hlast]
      exact List.mem_append_right _ List.mem_cons_self
    obtain ⟨l, hl, name, hfield, hname⟩ := exists_fieldOf h hmem
    have hline := List.all_eq_true.1 List.all_takeWhile l hl
    rw [hv]
    exact .inr ⟨l, (List.takeWhile_prefix _).subset hl, by simpa using hline, name, hfield, hname⟩

/-- Whatever host an accepted head names, some plain GET of any target names it too. -/
theorem exists_get {head : Bytes} {req : Request} (h : readRequest head = .ok req) {target : Str} (hne : target ≠ [])
    (hclean : Clean target) (hspace : 32 ∉ target) (htext : isUtf8 target = true) :
    ∃ head' req', readRequest head' = .ok req' ∧ req'.method = str "GET" ∧ req'.target = target ∧
      req'.fields.hostHdr = req.fields.hostHdr ∧ req'.fields.acceptEnc = [] ∧ req'.fields.inm = [] := by
  obtain ⟨reqline, ls, -, -, htext', hread⟩ := lines_of_readRequest h
  rcases host_of_fieldLines hread.fields with hnone | ⟨l, hl, hlne, name, hfield, hname⟩
  · refine ⟨_, _, readRequest_getLine (f := ⟨true, [], [], [], false, false⟩) hne hclean hspace htext textLine_blank rfl rfl,
      rfl, rfl, hnone.symm, rfl, rfl⟩
  · have hlines : ∀ x ∈ l :: ([[], []] : List Bytes), TextLine x := by
      rintro x (_ | ⟨_, hx⟩)
      · exact htext' l (List.mem_cons_of_mem _ hl)
      · exact textLine_blank x hx
    have hfields : fieldLines ⟨true, [], [], [], false, false⟩ (l :: [[], []]) =
        some ⟨true, [], req.fields.hostHdr, [], true, false⟩ := by
      have hempty : l.isEmpty = false := by simpa using hlne
      rw [fieldLines, hempty, if_neg Bool.false_ne_true, fieldLine, hfield]
      simp only [hname, if_true, Bool.false_eq_true, if_false, Option.bind_some]
      rfl
    exact ⟨_, _, readRequest_getLine hne hclean hspace htext hlines hfields rfl, rfl, rfl, rfl, rfl, rfl⟩

end BareServer
