/-
UTF-8: the machine that accepts the well-formed byte sequences (Unicode 15, table 3-7) one byte at
a time, and decoding that replaces every ill-formed part by U+FFFD.
-/
import BareServer.Lib.Bytes

namespace BareServer.Lib

/-! ## Well-formed sequences -/

/-- What the bytes read so far owe: nothing, or the continuation of an unfinished character. -/
inductive Utf8State where
  | start
  | tail1
  | tail2
  | tail3
  | afterE0
  | afterED
  | afterF0
  | afterF4
  deriving DecidableEq, Repr

namespace Utf8State

/-- The state after the first byte of a character. -/
def first (b : UInt8) : Option Utf8State :=
  if b < 0x80 then some .start
  else if 0xC2 ≤ b ∧ b ≤ 0xDF then some .tail1
  else if b = 0xE0 then some .afterE0
  else if b = 0xED then some .afterED
  else if 0xE1 ≤ b ∧ b ≤ 0xEF then some .tail2
  else if b = 0xF0 then some .afterF0
  else if 0xF1 ≤ b ∧ b ≤ 0xF3 then some .tail3
  else if b = 0xF4 then some .afterF4
  else none

/-- `next` when `lo ≤ b ≤ hi`. -/
def within (lo hi b : UInt8) (next : Utf8State) : Option Utf8State :=
  if lo ≤ b ∧ b ≤ hi then some next else none

/-- One byte: the state after it, or nothing where UTF-8 cannot hold it. -/
def step : Utf8State → UInt8 → Option Utf8State
  | .start, b => first b
  | .tail1, b => within 0x80 0xBF b .start
  | .tail2, b => within 0x80 0xBF b .tail1
  | .tail3, b => within 0x80 0xBF b .tail2
  | .afterE0, b => within 0xA0 0xBF b .tail1
  | .afterED, b => within 0x80 0x9F b .tail1
  | .afterF0, b => within 0x90 0xBF b .tail2
  | .afterF4, b => within 0x80 0x8F b .tail2

def run : Utf8State → Bytes → Option Utf8State
  | q, [] => some q
  | q, b :: s => (q.step b).bind fun q' => run q' s

theorem run_append (q : Utf8State) (s t : Bytes) : run q (s ++ t) = (run q s).bind fun q' => run q' t := by
  induction s generalizing q with
  | nil => rfl
  | cons b s ih =>
    simp only [List.cons_append, run]
    cases q.step b with
    | none => rfl
    | some q' => exact ih q'

theorem step_ascii {b : UInt8} (h : b < 0x80) : step .start b = some .start := by
  simp [step, first, h]

theorem within_ascii {lo hi b : UInt8} (hlo : 0x80 ≤ lo) (hb : b < 0x80) (next : Utf8State) : within lo hi b next = none :=
  if_neg fun h => absurd (UInt8.le_trans hlo h.1) (UInt8.not_le.2 hb)

/-- An ASCII byte stands where nothing is owed. -/
theorem start_of_step_ascii {q q' : Utf8State} {b : UInt8} (hb : b < 0x80) (h : q.step b = some q') :
    q = .start ∧ q' = .start := by
  cases q with
  | start =>
    rw [step_ascii hb] at h
    exact ⟨rfl, (Option.some.inj h).symm⟩
  | _ =>
    rw [step, within_ascii (by decide) hb] at h
    cases h

end Utf8State

def isUtf8 (s : Bytes) : Bool := Utf8State.run .start s == some .start

/-- The text a byte string spells, when it is well-formed UTF-8. -/
def fromUtf8 (s : Bytes) : Option Str := if isUtf8 s then some s else none

theorem fromUtf8_eq_some {s t : Bytes} : fromUtf8 s = some t ↔ isUtf8 s = true ∧ s = t := by
  unfold fromUtf8
  split <;> simp_all

/-- Bytes that are read as text are that text. -/
theorem bind_fromUtf8_eq_some {o : Option Bytes} {t : Bytes} : o.bind fromUtf8 = some t ↔ o = some t ∧ isUtf8 t = true := by
  rw [Option.bind_eq_some_iff]
  constructor
  · rintro ⟨bytes, ho, htext⟩
    obtain ⟨hutf8, rfl⟩ := fromUtf8_eq_some.1 htext
    exact ⟨ho, hutf8⟩
  · rintro ⟨ho, hutf8⟩
    exact ⟨t, ho, fromUtf8_eq_some.2 ⟨hutf8, rfl⟩⟩

theorem isUtf8_append {s : Bytes} (hs : isUtf8 s = true) (t : Bytes) : isUtf8 (s ++ t) = isUtf8 t := by
  simp only [isUtf8, beq_iff_eq] at hs
  simp only [isUtf8, Utf8State.run_append, hs, Option.bind_some]

theorem isUtf8_ascii {s : Bytes} (h : ∀ b ∈ s, b < 0x80) : isUtf8 s = true := by
  simp only [isUtf8, beq_iff_eq]
  induction s with
  | nil => rfl
  | cons b s ih =>
    simp only [Utf8State.run, Utf8State.step_ascii (h b List.mem_cons_self), Option.bind_some]
    exact ih fun c hc => h c (List.mem_cons_of_mem _ hc)

/-- An ASCII byte ends one text and begins another. -/
theorem isUtf8_cut {s t : Bytes} {b : UInt8} (hb : b < 0x80) (h : isUtf8 (s ++ b :: t) = true) :
    isUtf8 s = true ∧ isUtf8 t = true := by
  simp only [isUtf8, beq_iff_eq, Utf8State.run_append] at h ⊢
  obtain ⟨q, hs, ht⟩ := Option.bind_eq_some_iff.1 h
  obtain ⟨q', hstep, ht⟩ := Option.bind_eq_some_iff.1 ht
  obtain ⟨rfl, rfl⟩ := Utf8State.start_of_step_ascii hb hstep
  exact ⟨hs, ht⟩

theorem isUtf8_head {b : UInt8} {s : Bytes} (h : isUtf8 (b :: s) = true) : b < 0x80 ∨ 0xC0 ≤ b := by
  simp only [isUtf8, beq_iff_eq, Utf8State.run, Utf8State.step] at h
  obtain ⟨q, hq, -⟩ := Option.bind_eq_some_iff.1 h
  by_contra hb
  push Not at hb
  have hnone : Utf8State.first b = none := by
    simp only [UInt8.le_iff_toNat_le, UInt8.lt_iff_toNat_lt, UInt8.reduceToNat] at hb
    simp only [Utf8State.first, UInt8.le_iff_toNat_le, UInt8.lt_iff_toNat_lt, ← UInt8.toNat_inj, UInt8.reduceToNat]
    iterate 8 rw [if_neg (by omega)]
  rw [hnone] at hq
  cases hq

/-! ## Lossy decoding -/

/-- U+FFFD. -/
def replacement : Str := [0xEF, 0xBF, 0xBD]

/-- Decoding from state `q`, which the pending bytes `acc` lead to. -/
def lossyFrom (q : Utf8State) (acc : Bytes) : Bytes → Str
  | [] => if acc = [] then [] else replacement
  | b :: s =>
    match q.step b with
    | some .start => acc ++ b :: lossyFrom .start [] s
    | some q' => lossyFrom q' (acc ++ [b]) s
    | none =>
      if acc = [] then replacement ++ lossyFrom .start [] s
      else
        -- the pending bytes are one maximal ill-formed part; `b` starts afresh
        replacement ++
          match Utf8State.first b with
          | some .start => b :: lossyFrom .start [] s
          | some q' => lossyFrom q' [b] s
          | none => replacement ++ lossyFrom .start [] s

/-- Decode, replacing every maximal ill-formed part by U+FFFD. -/
def fromUtf8Lossy (s : Bytes) : Str := lossyFrom .start [] s

theorem lossyFrom_run : ∀ (s : Bytes) (q : Utf8State) (acc : Bytes), (q = .start → acc = []) →
    q.run s = some .start → lossyFrom q acc s = acc ++ s
  | [], q, acc, ha, h => by
    simp only [Utf8State.run, Option.some.injEq] at h
    simp [lossyFrom, ha h]
  | b :: s, q, acc, ha, h => by
    simp only [Utf8State.run, Option.bind_eq_some_iff] at h
    obtain ⟨q', hq, h⟩ := h
    unfold lossyFrom
    rw [hq]
    by_cases hs : q' = .start
    · subst hs
      simp [lossyFrom_run s .start [] (fun _ => rfl) h]
    · have := lossyFrom_run s q' (acc ++ [b]) (fun h => absurd h hs) h
      cases q' <;> simp_all

theorem fromUtf8Lossy_eq {s : Bytes} (h : isUtf8 s = true) : fromUtf8Lossy s = s := by
  simp only [isUtf8, beq_iff_eq] at h
  exact lossyFrom_run s .start [] (fun _ => rfl) h

theorem mem_lossyFrom : ∀ (s : Bytes) (q : Utf8State) (acc : Bytes) (b : UInt8), b ∈ lossyFrom q acc s →
    b ∈ acc ∨ b ∈ s ∨ b ∈ replacement
  | [], q, acc, b, hb => by
    unfold lossyFrom at hb
    split at hb <;> simp_all
  | x :: s, q, acc, b, hb => by
    have ih := fun q acc => mem_lossyFrom s q acc b
    unfold lossyFrom at hb
    split at hb
    · have := ih .start []
      simp only [List.mem_append, List.mem_cons] at hb ⊢
      simp only [List.not_mem_nil, false_or] at this
      tauto
    · rename_i q' _ _
      have := ih q' (acc ++ [x])
      simp only [List.mem_append, List.mem_cons, List.not_mem_nil, or_false] at this ⊢
      tauto
    · have := ih .start []
      simp only [List.not_mem_nil, false_or] at this
      split at hb
      · simp only [List.mem_append, List.mem_cons] at hb ⊢
        tauto
      · simp only [List.mem_append] at hb
        rcases hb with hb | hb
        · exact .inr (.inr hb)
        · split at hb
          · simp only [List.mem_cons] at hb ⊢
            tauto
          · rename_i q' _ _
            have := ih q' [x]
            simp only [List.mem_cons, List.not_mem_nil, or_false] at this ⊢
            tauto
          · simp only [List.mem_append, List.mem_cons] at hb ⊢
            tauto

/-- Decoding leaves nothing out but for the empty string. -/
theorem lossyFrom_ne_nil : ∀ (s : Bytes) (q : Utf8State) (acc : Bytes), acc ≠ [] ∨ s ≠ [] → lossyFrom q acc s ≠ []
  | [], q, acc, h => by
    rcases h with h | h
    · rw [lossyFrom, if_neg h]
      simp [replacement]
    · exact absurd rfl h
  | x :: s, q, acc, h => by
    unfold lossyFrom
    split
    · simp
    · exact lossyFrom_ne_nil s _ _ (.inl (by simp))
    · split <;> simp [replacement]

end BareServer.Lib
