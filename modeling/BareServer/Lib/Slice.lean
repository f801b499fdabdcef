/-
Indexing and slicing as partial operations: an access out of range panics, and so does a text that
is cut inside a character.
-/
import BareServer.Lib.Utf8

namespace BareServer.Lib

/-- Why an access panics. -/
inductive Panic where
  | outOfRange
  | insideChar
  deriving DecidableEq, Repr

@[simp] theorem ok_bind {α β : Type} (a : α) (f : α → Except Panic β) : (Except.ok a >>= f) = f a := rfl

@[simp] theorem pure_eq_ok {α : Type} (a : α) : (pure a : Except Panic α) = .ok a := rfl

section

variable {α : Type}

/-! ## Sequences -/

/-- `s[i]` -/
def index (s : List α) (i : Nat) : Except Panic α :=
  match s[i]? with
  | some a => .ok a
  | none => .error .outOfRange

/-- `s[i..]` -/
def sliceFrom (s : List α) (i : Nat) : Except Panic (List α) :=
  if i ≤ s.length then .ok (s.drop i) else .error .outOfRange

/-- `s[..i]` -/
def sliceTo (s : List α) (i : Nat) : Except Panic (List α) :=
  if i ≤ s.length then .ok (s.take i) else .error .outOfRange

theorem index_ok {s : List α} {i : Nat} {a : α} (h : s[i]? = some a) : index s i = .ok a := by
  unfold index
  rw [h]

theorem sliceFrom_ok {s : List α} {i : Nat} (h : i ≤ s.length) : sliceFrom s i = .ok (s.drop i) := if_pos h

theorem sliceTo_ok {s : List α} {i : Nat} (h : i ≤ s.length) : sliceTo s i = .ok (s.take i) := if_pos h

theorem le_of_drop_nil {s : List α} {i : Nat} (h : s.drop i = []) : s.length ≤ i := List.drop_eq_nil_iff.1 h

theorem drop_cons {s t : List α} {i : Nat} {a : α} (h : s.drop i = a :: t) :
    i < s.length ∧ s[i]? = some a ∧ s.drop (i + 1) = t := by
  have hget : s[i]? = some a := by rw [← List.head?_drop, h, List.head?_cons]
  refine ⟨(List.getElem?_eq_some_iff.1 hget).1, hget, ?_⟩
  rw [← List.drop_drop, h, List.drop_one, List.tail_cons]

end

/-! ## Texts -/

/-- `t[i..]` of a text -/
def textFrom (t : Str) (i : Nat) : Except Panic Str :=
  if i ≤ t.length then if isCharBoundary t i then .ok (t.drop i) else .error .insideChar
  else .error .outOfRange

theorem isCharBoundary_le {t : Str} {i : Nat} (h : isCharBoundary t i = true) : i ≤ t.length := by
  unfold isCharBoundary at h
  split at h
  · rename_i b hb
    exact (List.getElem?_eq_some_iff.1 hb).1.le
  · exact (eq_of_beq h).le

theorem textFrom_ok {t : Str} {i : Nat} (h : isCharBoundary t i = true) : textFrom t i = .ok (t.drop i) := by
  rw [textFrom, if_pos (isCharBoundary_le h), if_pos h]

/-- A cut inside a character of three bytes. -/
example : textFrom [0xE2, 0x82, 0xAC] 2 = .error .insideChar := by decide

/-- What `get(..i)` finds ends at a boundary. -/
theorem isCharBoundary_of_getTo {t p : Str} {i : Nat} (h : getTo t i = some p) : isCharBoundary t i = true := by
  unfold getTo at h
  split at h
  · assumption
  · cases h

theorem isCharBoundary_ascii {t : Str} {i : Nat} {b : UInt8} (h : t[i]? = some b) (hb : b < 0x80) :
    isCharBoundary t i = true := by
  unfold isCharBoundary
  rw [h]
  simp [hb]

/-- A text after another begins at a boundary. -/
theorem isCharBoundary_append (s : Str) {t : Str} (ht : isUtf8 t = true) : isCharBoundary (s ++ t) s.length = true := by
  unfold isCharBoundary
  cases t with
  | nil => simp
  | cons b t =>
    rw [List.getElem?_append_right le_rfl, Nat.sub_self, List.getElem?_cons_zero]
    rcases isUtf8_head ht with hb | hb <;> simp [hb]

end BareServer.Lib
