/-
What the header lines of a head say. The pass over them leaves the last value of a field it keeps, and
the `Connection` options of all lines in order; a line it takes, it takes whatever it has collected
before, but for a second host.
-/
import BareServer.Lib.Trim
import BareServer.Serve.HeadSpec

namespace BareServer

open BareServer.Lib

/-! ## The lines up to the blank one -/

/-- The header lines up to the blank one. -/
def heading (ls : List Bytes) : List Bytes := ls.takeWhile fun l => !l.isEmpty

theorem fieldLines_heading (f : Fields) (ls : List Bytes) : fieldLines f ls = (heading ls).foldlM fieldLine f := by
  induction ls generalizing f with
  | nil => rfl
  | cons l ls ih =>
    unfold heading at ih ⊢
    rw [fieldLines, List.takeWhile_cons]
    cases l.isEmpty with
    | true => rfl
    | false =>
      simp only [Bool.false_eq_true, if_false, Bool.not_false, if_true, List.foldlM_cons]
      exact congrArg _ (funext ih)

theorem heading_append {pre : List Bytes} (h : ∀ l ∈ pre, l ≠ []) (post : List Bytes) :
    heading (pre ++ post) = pre ++ heading post :=
  List.takeWhile_append_of_pos fun l hl => by simpa using h l hl

/-! ## The lines taken -/

theorem spaces_of_blanks : ∀ {w : Str}, (∀ b ∈ w, isBlank b = true) → Spaces w
  | [], _ => .nil
  | b :: w, h => by
    refine .one ?_ (spaces_of_blanks fun b hb => h b (List.mem_cons_of_mem _ hb))
    have hb := h b List.mem_cons_self
    simp only [isBlank, Bool.or_eq_true, beq_iff_eq] at hb
    rcases hb with rfl | rfl <;> decide

/-- What a line that is taken has: a name before its first colon, without blanks. -/
theorem fieldOf_split {line n v : Str} (h : fieldOf line = some (n, v)) :
    ∃ value, splitOnce line (str ":") = some (n, value) ∧ v = trim value ∧ n ≠ [] ∧ ∀ b ∈ n, isBlank b = false := by
  unfold fieldOf at h
  split at h
  · cases h
  cases hs : splitOnce line (str ":") with
  | none => rw [hs] at h; cases h
  | some nv =>
    obtain ⟨name, value⟩ := nv
    rw [hs] at h
    simp only at h
    split at h
    · cases h
    rename_i hname
    cases h
    simp only [Bool.or_eq_true, not_or, List.isEmpty_iff, Bool.not_eq_true, List.any_eq_false] at hname
    exact ⟨value, rfl, rfl, hname.1, fun b hb => by simpa [isBlank] using hname.2 b hb⟩

/-- Every line of a pass that goes through is taken. -/
theorem fieldOf_of_foldlM {f f' : Fields} {ls : List Bytes} (h : ls.foldlM fieldLine f = some f') :
    ∀ l ∈ ls, ∃ n v, fieldOf l = some (n, v) := by
  induction ls generalizing f with
  | nil => exact nofun
  | cons l ls ih =>
    rw [List.foldlM_cons] at h
    obtain ⟨g, h1, h2⟩ := Option.bind_eq_some_iff.1 h
    obtain ⟨n, v, hf, -⟩ := fieldLine_some h1
    rintro l' (_ | ⟨_, hl⟩)
    · exact ⟨n, v, hf⟩
    · exact ih h2 l' hl

theorem mem_fieldValues {name n v : Str} {l : Bytes} {ls : List Bytes} (hl : l ∈ ls) (hf : fieldOf l = some (n, v))
    (hn : eqIgnoreCase n name = true) : v ∈ fieldValues name ls :=
  List.mem_filterMap.2 ⟨(n, v), List.mem_filterMap.2 ⟨l, hl, (fieldOf_some hf).2⟩, if_pos hn⟩

/-- A value in a pass that goes through stands in a line of its name. -/
theorem exists_fieldOf {f f' : Fields} {ls : List Bytes} (h : ls.foldlM fieldLine f = some f') {name v : Str}
    (hv : v ∈ fieldValues name ls) : ∃ l ∈ ls, ∃ n, fieldOf l = some (n, v) ∧ eqIgnoreCase n name = true := by
  obtain ⟨nv, hnv, hname⟩ := List.mem_filterMap.1 hv
  obtain ⟨l, hl, hloose⟩ := List.mem_filterMap.1 hnv
  obtain ⟨n, w, hf⟩ := fieldOf_of_foldlM h l hl
  cases hloose.symm.trans (fieldOf_some hf).2
  split at hname
  · rename_i hn
    cases hname
    exact ⟨l, hl, n, hf, hn⟩
  · cases hname

/-! ## What is collected -/

theorem connectionOptions_append (k : Bool) (a b : List Str) :
    connectionOptions k (a ++ b) = connectionOptions (connectionOptions k a) b := by
  induction a generalizing k with
  | nil => rfl
  | cons tok a ih =>
    rw [List.cons_append, connectionOptions, connectionOptions]
    split
    · exact ih false
    · split
      · exact ih true
      · exact ih k

theorem getLastD_append {α : Type} (d : α) (a b : List α) : (a ++ b).getLastD d = b.getLastD (a.getLastD d) := by
  simp [List.getLastD_eq_getLast?, List.getLast?_append, Option.getD_or]

/-- What the lines say, from what was collected before them. -/
structure Says (f f' : Fields) (ls : List Bytes) : Prop where
  keepAlive : f'.keepAlive = connectionOptions f.keepAlive ((fieldValues (str "connection") ls).flatMap (·.splitOn 44))
  acceptEnc : f'.acceptEnc = (fieldValues (str "accept-encoding") ls).getLastD f.acceptEnc
  inm : f'.inm = (fieldValues (str "if-none-match") ls).getLastD f.inm
  hostHdr : f'.hostHdr = (fieldValues (str "host") ls).getLastD f.hostHdr

theorem fieldValues_append (name : Str) (a b : List Bytes) :
    fieldValues name (a ++ b) = fieldValues name a ++ fieldValues name b := by
  simp [fieldValues]

theorem Says.append {f g f' : Fields} {a b : List Bytes} (h : Says f g a) (h' : Says g f' b) : Says f f' (a ++ b) where
  keepAlive := by rw [h'.keepAlive, h.keepAlive, ← connectionOptions_append, fieldValues_append, List.flatMap_append]
  acceptEnc := by rw [h'.acceptEnc, h.acceptEnc, fieldValues_append, getLastD_append]
  inm := by rw [h'.inm, h.inm, fieldValues_append, getLastD_append]
  hostHdr := by rw [h'.hostHdr, h.hostHdr, fieldValues_append, getLastD_append]

theorem fieldValues_singleton {line n v : Str} (h : fieldOf line = some (n, v)) (name : Str) :
    fieldValues name [line] = if eqIgnoreCase n name then [v] else [] := by
  rw [fieldValues_cons (fieldOf_some h).2]
  exact List.append_nil _

theorem says_line {f f' : Fields} {line : Str} (h : fieldLine f line = some f') : Says f f' [line] := by
  unfold fieldLine at h
  cases hf : fieldOf line with
  | none => rw [hf] at h; cases h
  | some nv =>
    obtain ⟨n, v⟩ := nv
    rw [hf] at h
    simp only at h
    have hval := fieldValues_singleton hf
    -- a name that is one of the known fields is none of the others
    split at h
    · rename_i hn
      split at h
      · cases h
      · cases h
        constructor <;> simp (disch := decide) [hval, hn, eqIgnoreCase_other hn, connectionOptions]
    split at h
    · rename_i hn
      cases h
      constructor <;> split <;> simp (disch := decide) [hval, eqIgnoreCase_other hn, connectionOptions]
    split at h
    · rename_i hn
      cases h
      constructor <;> simp (disch := decide) [hval, eqIgnoreCase_other hn, connectionOptions]
    split at h
    · rename_i hn
      cases h
      constructor <;> simp (disch := decide) [hval, hn, eqIgnoreCase_other hn]
    split at h
    · rename_i hn
      cases h
      constructor <;> simp (disch := decide) [hval, hn, eqIgnoreCase_other hn, connectionOptions]
    split at h
    · rename_i hn
      cases h
      constructor <;> simp (disch := decide) [hval, hn, eqIgnoreCase_other hn, connectionOptions]
    · cases h
      constructor <;> simp [*, connectionOptions]

theorem says_lines {f f' : Fields} {ls : List Bytes} (h : ls.foldlM fieldLine f = some f') : Says f f' ls := by
  induction ls generalizing f with
  | nil =>
    cases h
    exact ⟨rfl, rfl, rfl, rfl⟩
  | cons l ls ih =>
    rw [List.foldlM_cons] at h
    obtain ⟨g, h1, h2⟩ := Option.bind_eq_some_iff.1 h
    exact (says_line h1).append (ih h2)

end BareServer
