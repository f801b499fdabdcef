/-
HTTP/1.1 responses as messages: the status, the fields and the body, how they are written, and when
what is written is one response that every reader cuts at the same place.
-/
import BareServer.Lib.Bytes

namespace BareServer.Lib

/-- A response: its status, its fields in order, and its body. -/
structure Response where
  code : Nat
  reason : Str
  fields : List (Str × Str)
  body : Bytes

def renderField (nv : Str × Str) : Str := nv.1 ++ str ": " ++ nv.2 ++ str "\r\n"

namespace Response

/-- The status line and the fields, without the blank line. -/
def lines (r : Response) : Str :=
  str "HTTP/1.1 " ++ dec r.code ++ str " " ++ r.reason ++ str "\r\n" ++ r.fields.flatMap renderField

def head (r : Response) : Str := r.lines ++ str "\r\n"

def render (r : Response) : Bytes := r.head ++ r.body

/-- The fields of one name, in any spelling of its case. -/
def named (r : Response) (name : Str) : List (Str × Str) := r.fields.filter fun nv => eqIgnoreCase nv.1 name

/-- Every field is a name of letters and hyphens, and a value without control bytes. -/
structure CleanFields (fields : List (Str × Str)) : Prop where
  nonempty : ∀ nv ∈ fields, nv.1 ≠ []
  name : ∀ nv ∈ fields, ∀ b ∈ nv.1, isAlpha b = true ∨ b = 45
  value : ∀ nv ∈ fields, Clean nv.2

/-- One response to a request: clean lines, no transfer coding, and a body that is absent where the
status or the request (`noBody`) says so and otherwise as long as its only Content-Length states. -/
structure WellFramed (r : Response) (noBody : Bool) : Prop where
  reason : Clean r.reason
  fields : CleanFields r.fields
  noTransferEncoding : r.named (str "transfer-encoding") = []
  bodiless : r.code = 301 ∨ r.code = 304 ∨ noBody = true → r.body = []
  length : ¬ (r.code = 301 ∨ r.code = 304 ∨ noBody = true) →
    r.named (str "content-length") = [(str "Content-Length", dec r.body.length)]

theorem cleanFields_append {a b : List (Str × Str)} : CleanFields (a ++ b) ↔ CleanFields a ∧ CleanFields b := by
  constructor
  · intro h
    exact ⟨⟨fun x hx => h.nonempty x (List.mem_append_left _ hx), fun x hx => h.name x (List.mem_append_left _ hx),
      fun x hx => h.value x (List.mem_append_left _ hx)⟩,
      ⟨fun x hx => h.nonempty x (List.mem_append_right _ hx), fun x hx => h.name x (List.mem_append_right _ hx),
      fun x hx => h.value x (List.mem_append_right _ hx)⟩⟩
  · rintro ⟨ha, hb⟩
    exact ⟨fun x hx => (List.mem_append.1 hx).elim (ha.nonempty x) (hb.nonempty x),
      fun x hx => (List.mem_append.1 hx).elim (ha.name x) (hb.name x),
      fun x hx => (List.mem_append.1 hx).elim (ha.value x) (hb.value x)⟩

/-- A field whose name is a word and whose value is clean may be put in front. -/
theorem CleanFields.cons {name value : Str} {fields : List (Str × Str)} (hn : name ≠ [] ∧ ∀ b ∈ name, isAlpha b = true ∨ b = 45)
    (hv : Clean value) (h : CleanFields fields) : CleanFields ((name, value) :: fields) := by
  refine ⟨?_, ?_, ?_⟩ <;> rintro nv (_ | ⟨_, hnv⟩)
  · exact hn.1
  · exact h.nonempty nv hnv
  · exact hn.2
  · exact h.name nv hnv
  · exact hv
  · exact h.value nv hnv

/-- Fields whose names are words of letters and hyphens, and whose values stay on their line. -/
structure OneLine (fields : List (Str × Str)) : Prop where
  nonempty : ∀ nv ∈ fields, nv.1 ≠ []
  name : ∀ nv ∈ fields, ∀ b ∈ nv.1, isAlpha b = true ∨ b = 45
  value : ∀ nv ∈ fields, 10 ∉ nv.2

theorem CleanFields.oneLine {fields : List (Str × Str)} (h : CleanFields fields) : OneLine fields :=
  ⟨h.nonempty, h.name, fun nv hnv hm => absurd (h.value nv hnv 10 hm) (by decide)⟩

theorem OneLine.cons {name value : Str} {fields : List (Str × Str)} (hn : name ≠ [] ∧ ∀ b ∈ name, isAlpha b = true ∨ b = 45)
    (hv : 10 ∉ value) (h : OneLine fields) : OneLine ((name, value) :: fields) := by
  refine ⟨?_, ?_, ?_⟩ <;> rintro nv (_ | ⟨_, hnv⟩)
  · exact hn.1
  · exact h.nonempty nv hnv
  · exact hn.2
  · exact h.name nv hnv
  · exact hv
  · exact h.value nv hnv

/-! ## Where a response is cut -/

theorem blank_at {s : Bytes} {j : Nat} (h : [13, 10, 13, 10] <+: s.drop j) :
    s[j]? = some 13 ∧ s[j + 1]? = some 10 ∧ s[j + 2]? = some 13 := by
  obtain ⟨t, ht⟩ := h
  have hget : ∀ k, s[j + k]? = ([13, 10, 13, 10] ++ t)[k]? := fun k => by rw [ht, List.getElem?_drop]
  exact ⟨hget 0, hget 1, hget 2⟩

/-- No blank line starts within a line without an LF. -/
theorem not_blank_drop {l rest : Bytes} (hl : 10 ∉ l) {j : Nat} (hj : j < l.length) :
    ¬ [13, 10, 13, 10] <+: (l ++ 13 :: rest).drop j := by
  intro hp
  have hlf := (blank_at hp).2.1
  rcases Nat.lt_or_ge (j + 1) l.length with hlt | hge
  · rw [List.getElem?_append_left hlt] at hlf
    exact hl (List.mem_of_getElem? hlf)
  · rw [List.getElem?_append_right hge, show j + 1 - l.length = 0 by omega, List.getElem?_cons_zero] at hlf
    exact absurd (Option.some.inj hlf) (by decide)

/-- A line that holds no LF and is followed by no CR but its own moves the first blank line on. -/
theorem firstAt_line {l rest : Bytes} {i : Nat} (hl : 10 ∉ l) (hrest : rest.head? ≠ some 13)
    (h : FirstAt [13, 10, 13, 10] rest i) :
    FirstAt [13, 10, 13, 10] (l ++ 13 :: 10 :: rest) (l.length + 2 + i) := by
  have hdrop : ∀ j, (l ++ 13 :: 10 :: rest).drop (l.length + j) = (13 :: 10 :: rest).drop j := by
    intro j
    rw [← List.drop_drop, List.drop_left]
  refine ⟨?_, ?_, fun j hj hp => ?_⟩
  · have hle := h.le
    simp only [List.length_append, List.length_cons]
    omega
  · rw [Nat.add_assoc, hdrop, Nat.add_comm 2 i]
    exact h.occurs
  · rcases Nat.lt_or_ge j l.length with hlt | hge
    · exact not_blank_drop hl hlt hp
    · obtain ⟨k, rfl⟩ : ∃ k, j = l.length + k := ⟨j - l.length, by omega⟩
      rw [hdrop] at hp
      match k, hp with
      | 0, hp =>
        -- at its end another CR would have to follow
        exact hrest (List.head?_eq_getElem? ▸ (blank_at (j := 0) hp).2.2)
      | 1, hp => exact absurd (Option.some.inj (blank_at (j := 0) hp).1) (by decide)
      | k + 2, hp => exact h.first k (by omega) hp

theorem renderField_line (nv : Str × Str) : renderField nv = (nv.1 ++ str ": " ++ nv.2) ++ [13, 10] := by
  have : str "\r\n" = [13, 10] := by decide
  rw [renderField, this]

theorem isAlpha_ne_cr {b : UInt8} (h : isAlpha b = true ∨ b = 45) : b ≠ 13 := by
  rintro rfl
  exact absurd h (by decide)

theorem OneLine.line {fields : List (Str × Str)} (h : OneLine fields) {nv : Str × Str} (hnv : nv ∈ fields) :
    10 ∉ nv.1 ++ str ": " ++ nv.2 := by
  simp only [List.mem_append, not_or]
  refine ⟨⟨fun hm => ?_, by decide⟩, h.value nv hnv⟩
  exact absurd (h.name nv hnv 10 hm) (by decide)

theorem OneLine.tail {nv : Str × Str} {fields : List (Str × Str)} (h : OneLine (nv :: fields)) : OneLine fields :=
  ⟨fun x hx => h.nonempty x (List.mem_cons_of_mem _ hx), fun x hx => h.name x (List.mem_cons_of_mem _ hx),
    fun x hx => h.value x (List.mem_cons_of_mem _ hx)⟩

/-- Field lines, then a blank line: the first blank line is that one. -/
theorem firstAt_fields {fields : List (Str × Str)} (h : OneLine fields) (body l : Bytes) (hl : 10 ∉ l) :
    FirstAt [13, 10, 13, 10] (l ++ 13 :: 10 :: (fields.flatMap renderField ++ 13 :: 10 :: body))
      (l.length + (fields.flatMap renderField).length) := by
  induction fields generalizing l with
  | nil =>
    refine ⟨by simp, ?_, fun j hj => not_blank_drop hl hj⟩
    show _ <+: (l ++ 13 :: 10 :: 13 :: 10 :: body).drop l.length
    rw [List.drop_left]
    exact ⟨body, rfl⟩
  | cons nv fields ih =>
    have hih := ih h.tail (nv.1 ++ str ": " ++ nv.2) (h.line List.mem_cons_self)
    have hhead : (nv.1 ++ str ": " ++ nv.2 ++ 13 :: 10 :: (fields.flatMap renderField ++ 13 :: 10 :: body)).head? ≠
        some 13 := by
      cases hn : nv.1 with
      | nil => exact absurd hn (h.nonempty nv List.mem_cons_self)
      | cons b t =>
        simp only [List.cons_append, List.head?_cons, ne_eq, Option.some.injEq]
        exact isAlpha_ne_cr (h.name nv List.mem_cons_self b (by rw [hn]; exact List.mem_cons_self))
    have := firstAt_line hl hhead hih
    simp only [List.flatMap_cons, renderField_line]
    simp only [List.append_assoc, List.cons_append, List.nil_append, List.length_append, List.length_cons] at this ⊢
    convert this using 1
    omega

theorem statusLine_oneLine {r : Response} (hreason : 10 ∉ r.reason) :
    (10 : UInt8) ∉ str "HTTP/1.1 " ++ dec r.code ++ str " " ++ r.reason := by
  simp only [List.mem_append, not_or]
  exact ⟨⟨⟨by decide, fun hm => absurd (isAlnum_of_mem_dec hm) (by decide)⟩, by decide⟩, hreason⟩

/-- A response whose fields stay on their lines has its first blank line before its body, so it is cut
there and nowhere else. -/
theorem firstAt_head {r : Response} (hreason : 10 ∉ r.reason) (hfields : OneLine r.fields) :
    FirstAt [13, 10, 13, 10] r.render (r.head.length - 4) ∧ r.render.drop r.head.length = r.body := by
  have hstatus := statusLine_oneLine hreason
  have hcrlf : str "\r\n" = [13, 10] := by decide
  have hfirst := firstAt_fields hfields r.body _ hstatus
  constructor
  · have hrender : r.render = (str "HTTP/1.1 " ++ dec r.code ++ str " " ++ r.reason) ++
        13 :: 10 :: (r.fields.flatMap renderField ++ 13 :: 10 :: r.body) := by
      simp only [render, head, lines, hcrlf, List.append_assoc, List.cons_append, List.nil_append]
    have hlen : r.head.length - 4 =
        (str "HTTP/1.1 " ++ dec r.code ++ str " " ++ r.reason).length + (r.fields.flatMap renderField).length := by
      simp only [head, lines, hcrlf, List.length_append, List.length_cons, List.length_nil]
      omega
    rw [hrender, hlen]
    exact hfirst
  · rw [render, List.drop_left]

theorem length_head (r : Response) : 4 ≤ r.head.length := by
  have hcrlf : str "\r\n" = [13, 10] := by decide
  simp only [head, lines, hcrlf, List.length_append, List.length_cons, List.length_nil]
  omega

theorem WellFramed.firstAt {r : Response} {noBody : Bool} (h : r.WellFramed noBody) :
    FirstAt [13, 10, 13, 10] r.render (r.head.length - 4) ∧ r.render.drop r.head.length = r.body :=
  firstAt_head h.reason.no_lf h.fields.oneLine

/-! ## Reading a response back -/

/-- The field lines of what was written: the lines after the first, up to the first blank one. -/
def fieldLinesOf (out : Bytes) : List Str := (splitCrlf out).tail.takeWhile fun l => !l.isEmpty

def bodyOf (out : Bytes) : Option Bytes := (indexOf? [13, 10, 13, 10] out).map fun i => out.drop (i + 4)

theorem bodyOf_render {r : Response} (hreason : Clean r.reason) (hfields : CleanFields r.fields) :
    bodyOf r.render = some r.body := by
  obtain ⟨hat, hdrop⟩ := firstAt_head hreason.no_lf hfields.oneLine
  rw [bodyOf, indexOf?_some.2 hat, Option.map_some, Nat.sub_add_cancel (length_head r), hdrop]

/-- The values of one field, in any spelling of its name, as a client reads them. -/
def valuesOf (name : Str) (out : Bytes) : List Str :=
  ((fieldLinesOf out).filterMap fun l => splitOnce l (str ": ")).filterMap fun nv =>
    if eqIgnoreCase nv.1 name then some nv.2 else none

theorem splitCrlf_line {l : Bytes} (hl : 10 ∉ l) (rest : Bytes) : splitCrlf (l ++ 13 :: 10 :: rest) = l :: splitCrlf rest := by
  rw [splitCrlf_append, splitCrlf_singleton (.inr hl), List.singleton_append]

theorem splitOnce_field {nv : Str × Str} (hname : ∀ b ∈ nv.1, isAlpha b = true ∨ b = 45) :
    splitOnce (nv.1 ++ str ": " ++ nv.2) (str ": ") = some nv := by
  have hcolon : 58 ∉ nv.1 := fun hm => absurd (hname 58 hm) (by decide)
  rw [List.append_assoc]
  exact splitOnce_of_not_mem hcolon [32] nv.2

/-- The fields of a response are read back as they were written. -/
theorem fieldLinesOf_render {r : Response} (hreason : 10 ∉ r.reason) (h : OneLine r.fields) :
    fieldLinesOf r.render = r.fields.map fun nv => nv.1 ++ str ": " ++ nv.2 := by
  have hcrlf : str "\r\n" = [13, 10] := by decide
  have hstatus := statusLine_oneLine hreason
  have hfields : ∀ fields : List (Str × Str), OneLine fields →
      (splitCrlf (fields.flatMap renderField ++ 13 :: 10 :: r.body)).takeWhile (fun l => !l.isEmpty) =
        fields.map fun nv => nv.1 ++ str ": " ++ nv.2 := by
    intro fields hf
    induction fields with
    | nil =>
      rw [List.flatMap_nil, List.nil_append, splitCrlf]
      rfl
    | cons nv fields ih =>
      have hne := hf.nonempty nv List.mem_cons_self
      have hline := hf.line List.mem_cons_self
      have hrest := ih hf.tail
      have hcons : (nv :: fields).flatMap renderField ++ 13 :: 10 :: r.body =
          (nv.1 ++ str ": " ++ nv.2) ++ 13 :: 10 :: (fields.flatMap renderField ++ 13 :: 10 :: r.body) := by
        rw [List.flatMap_cons, renderField_line]
        simp only [List.append_assoc, List.cons_append, List.nil_append]
      rw [hcons, splitCrlf_line hline, List.takeWhile_cons_of_pos (by simp [hne]), hrest, List.map_cons]
  have hrender : r.render = (str "HTTP/1.1 " ++ dec r.code ++ str " " ++ r.reason) ++
      13 :: 10 :: (r.fields.flatMap renderField ++ 13 :: 10 :: r.body) := by
    simp only [render, head, lines, hcrlf, List.append_assoc, List.cons_append, List.nil_append]
  rw [fieldLinesOf, hrender, splitCrlf_line hstatus, List.tail_cons]
  exact hfields r.fields h

theorem valuesOf_render {r : Response} (hreason : 10 ∉ r.reason) (h : OneLine r.fields) (name : Str) :
    valuesOf name r.render = (r.named name).map Prod.snd := by
  have hsplit : (r.fields.map fun nv => nv.1 ++ str ": " ++ nv.2).filterMap (fun l => splitOnce l (str ": ")) =
      r.fields := by
    rw [List.filterMap_map]
    conv_rhs => rw [← List.filterMap_some (l := r.fields)]
    exact List.filterMap_congr fun nv hnv => splitOnce_field (h.name nv hnv)
  rw [valuesOf, fieldLinesOf_render hreason h, hsplit, named]
  induction r.fields with
  | nil => rfl
  | cons nv fields ih =>
    rw [List.filterMap_cons, List.filter_cons]
    cases eqIgnoreCase nv.1 name with
    | true => simp [ih]
    | false => simpa using ih

end Response
end BareServer.Lib
