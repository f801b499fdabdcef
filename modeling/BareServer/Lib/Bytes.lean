/-
Byte strings: searching, splitting, trimming, case folding and numerals, on lists of bytes. Text
is its UTF-8 bytes throughout, so a length is a byte length and a slice is a byte slice.
-/
import Mathlib.Data.List.Basic
import Mathlib.Data.List.Infix
import Mathlib.Tactic

namespace BareServer.Lib

abbrev Bytes := List UInt8

/-- Text, as its UTF-8 bytes. -/
abbrev Str := List UInt8

def str (s : String) : Str := s.toByteArray.data.toList

theorem str_slash : str "/" = [47] := rfl

/-- A text that goes on starts with a slash when its first part does. -/
theorem slash_prefix_append {s : Str} (hs : s ≠ []) (t : Str) : str "/" <+: s ++ t ↔ str "/" <+: s := by
  cases s with
  | nil => exact absurd rfl hs
  | cons b s => simp [str_slash]

/-! ## Bytes -/

/-- What holds of the first 256 numbers as bytes holds of every byte. -/
theorem forall_byte {P : UInt8 → Prop} (h : ∀ n : Fin 256, P (.ofNat n)) (b : UInt8) : P b := by
  have hb := h ⟨b.toNat, b.toNat_lt⟩
  rwa [UInt8.ofNat_toNat] at hb

/-- What holds of the first sixteen numbers as bytes holds of every nibble. -/
theorem forall_nibble {P : UInt8 → Prop} (h : ∀ n : Fin 16, P (.ofNat n)) {b : UInt8} (hb : b.toNat < 16) : P b := by
  have hn := h ⟨b.toNat, hb⟩
  rwa [UInt8.ofNat_toNat] at hn

/-! ## Searching -/

/-- The position of the first occurrence of `needle`. -/
def indexOf? (needle : Bytes) : Bytes → Option Nat
  | [] => if needle = [] then some 0 else none
  | b :: hay => if needle <+: b :: hay then some 0 else (indexOf? needle hay).map (· + 1)

def containsStr (hay needle : Bytes) : Bool := (indexOf? needle hay).isSome

/-- `i` is the first position at which `needle` occurs in `hay`. -/
structure FirstAt (needle hay : Bytes) (i : Nat) : Prop where
  le : i ≤ hay.length
  occurs : needle <+: hay.drop i
  first : ∀ j < i, ¬ needle <+: hay.drop j

theorem indexOf?_some {needle : Bytes} : ∀ {hay : Bytes} {i : Nat},
    indexOf? needle hay = some i ↔ FirstAt needle hay i
  | [], i => by
    unfold indexOf?
    split
    · rename_i h
      subst h
      constructor
      · intro h; cases h; exact ⟨le_refl _, by simp, fun j hj => by omega⟩
      · intro h; have := h.le; simp at this; simp [this]
    · rename_i h
      constructor
      · intro h'; cases h'
      · intro h'; exact absurd (by simpa using h'.occurs) h
  | b :: hay, i => by
    unfold indexOf?
    split
    · rename_i h
      constructor
      · intro h'; cases h'; exact ⟨Nat.zero_le _, h, fun j hj => by omega⟩
      · intro h'
        cases i with
        | zero => rfl
        | succ i => exact absurd h (h'.first 0 (Nat.succ_pos i))
    · rename_i h
      rw [Option.map_eq_some_iff]
      constructor
      · rintro ⟨k, hk, rfl⟩
        have hf := indexOf?_some.1 hk
        refine ⟨by have := hf.le; simp; omega, by simpa using hf.occurs, fun j hj => ?_⟩
        cases j with
        | zero => exact h
        | succ j => simpa using hf.first j (by omega)
      · intro h'
        cases i with
        | zero => exact absurd h'.occurs h
        | succ i =>
          refine ⟨i, indexOf?_some.2 ⟨by have := h'.le; simp at this; omega, by simpa using h'.occurs, fun j hj => ?_⟩, rfl⟩
          simpa using h'.first (j + 1) (by omega)

theorem FirstAt.add_le {needle hay : Bytes} {i : Nat} (h : FirstAt needle hay i) : i + needle.length ≤ hay.length := by
  have h1 := h.occurs.length_le
  have h2 := h.le
  simp only [List.length_drop] at h1
  omega

/-- No occurrence starts in a text without the needle's first byte. -/
theorem not_prefix_drop {c : UInt8} {l : Bytes} (hc : c ∉ l) {j : Nat} (hj : j < l.length) (needle rest : Bytes) :
    ¬ c :: needle <+: (l ++ rest).drop j := by
  intro hp
  rw [List.drop_append_of_le_length (by omega), List.drop_eq_getElem_cons hj, List.cons_append,
    List.cons_prefix_cons] at hp
  exact hc (hp.1 ▸ List.getElem_mem hj)

/-- Behind such a text the needle occurs first where it is put. -/
theorem firstAt_of_not_mem {c : UInt8} {l : Bytes} (hc : c ∉ l) (needle rest : Bytes) :
    FirstAt (c :: needle) (l ++ (c :: needle ++ rest)) l.length := by
  refine ⟨?_, ?_, fun j hj => not_prefix_drop hc hj needle _⟩
  · rw [List.length_append]
    omega
  · rw [List.drop_left]
    exact List.prefix_append _ _

/-- No occurrence means no position at which the needle stands. -/
theorem indexOf?_none {needle hay : Bytes} :
    indexOf? needle hay = none ↔ ∀ j ≤ hay.length, ¬ needle <+: hay.drop j := by
  constructor
  · intro h j hj hp
    -- the least such position would be the first occurrence
    have hex : ∃ j, j ≤ hay.length ∧ needle <+: hay.drop j := ⟨j, hj, hp⟩
    classical
    have hspec := Nat.find_spec hex
    have : FirstAt needle hay (Nat.find hex) := ⟨hspec.1, hspec.2, fun k hk hk' =>
      Nat.find_min hex hk ⟨by have := hspec.1; omega, hk'⟩⟩
    rw [indexOf?_some.2 this] at h
    cases h
  · intro h
    cases hi : indexOf? needle hay with
    | none => rfl
    | some i => exact absurd (indexOf?_some.1 hi).occurs (h i (indexOf?_some.1 hi).le)

def replaceFirst (s pat rep : Str) : Str :=
  match indexOf? pat s with
  | some i => s.take i ++ rep ++ s.drop (i + pat.length)
  | none => s

theorem replaceFirst_of_firstAt {a pat b rep : Str} (h : FirstAt pat (a ++ pat ++ b) a.length) :
    replaceFirst (a ++ pat ++ b) pat rep = a ++ rep ++ b := by
  unfold replaceFirst
  rw [indexOf?_some.2 h]
  simp

/-! ## Slicing -/

/-- Is byte `i` of the text the start of a character, or its end? -/
def isCharBoundary (s : Str) (i : Nat) : Bool :=
  match s[i]? with
  | some b => i == 0 || b < 0x80 || 0xC0 ≤ b
  | none => i == s.length

/-- The first `i` bytes, when they end at a character boundary. -/
def getTo (s : Str) (i : Nat) : Option Str := if isCharBoundary s i then some (s.take i) else none

/-! ## Splitting -/

/-- The text before and after the first `sep`, or nothing when there is none. -/
def splitOnce (s sep : Str) : Option (Str × Str) :=
  (indexOf? sep s).map fun i => (s.take i, s.drop (i + sep.length))

theorem splitOnce_of_not_mem {c : UInt8} {a : Str} (hc : c ∉ a) (sep b : Str) :
    splitOnce (a ++ (c :: sep ++ b)) (c :: sep) = some (a, b) := by
  rw [splitOnce, indexOf?_some.2 (firstAt_of_not_mem hc sep b), Option.map_some, List.take_left, ← List.drop_drop,
    List.drop_left, List.drop_left]

/-- The text before and after the last byte `c`. -/
def rsplitOnce (s : Str) (c : UInt8) : Option (Str × Str) :=
  match s.reverse.splitOn c with
  | last :: init@(_ :: _) => some (([c].intercalate init).reverse, last.reverse)
  | _ => none

theorem splitOnce_subset {s sep a b : Str} (h : splitOnce s sep = some (a, b)) : a ⊆ s ∧ b ⊆ s := by
  obtain ⟨i, -, e⟩ := Option.map_eq_some_iff.1 h
  cases e
  exact ⟨List.take_subset _ _, List.drop_subset _ _⟩

theorem mem_splitOn {c : UInt8} {s l : Str} (h : l ∈ s.splitOn c) : l ⊆ s ∧ c ∉ l := by
  induction s generalizing l with
  | nil =>
    rw [List.splitOn_nil, List.mem_singleton] at h
    subst h
    exact ⟨fun _ h => h, List.not_mem_nil⟩
  | cons b s ih =>
    rw [List.splitOn_cons_eq_if_modifyHead] at h
    split at h
    · rcases List.mem_cons.1 h with rfl | h
      · exact ⟨List.nil_subset _, List.not_mem_nil⟩
      · exact ⟨List.subset_cons_of_subset _ (ih h).1, (ih h).2⟩
    · rename_i hb
      cases hs : s.splitOn c with
      | nil => exact absurd hs (List.splitOn_ne_nil _ _)
      | cons l' ls =>
        rw [hs, List.modifyHead_cons] at h
        rw [hs] at ih
        rcases List.mem_cons.1 h with rfl | h
        · obtain ⟨hsub, hno⟩ := ih List.mem_cons_self
          exact ⟨List.cons_subset_cons _ hsub, List.not_mem_cons_of_ne_of_not_mem (by rintro rfl; exact hb (beq_self_eq_true _)) hno⟩
        · obtain ⟨hsub, hno⟩ := ih (List.mem_cons_of_mem _ h)
          exact ⟨List.subset_cons_of_subset _ hsub, hno⟩

theorem rsplitOnce_append {c : UInt8} {b : Str} (hb : c ∉ b) (a : Str) : rsplitOnce (a ++ c :: b) c = some (a, b) := by
  have hne : a.reverse.splitOn c ≠ [] := List.splitOn_ne_nil _ _
  unfold rsplitOnce
  rw [List.reverse_append, List.reverse_cons, List.append_assoc, List.singleton_append,
    List.splitOn_append_cons_self_of_not_mem (by simpa using hb)]
  cases hs : a.reverse.splitOn c with
  | nil => exact absurd hs hne
  | cons x xs => simp only [List.reverse_reverse, ← hs, List.intercalate_splitOn]

theorem rsplitOnce_some {c : UInt8} {s a b : Str} (h : rsplitOnce s c = some (a, b)) : s = a ++ c :: b ∧ c ∉ b := by
  by_cases hc : c ∈ s
  · obtain ⟨y, x, hs, hy⟩ := List.eq_append_cons_of_mem (List.mem_reverse.2 hc)
    have hsplit : s = x.reverse ++ c :: y.reverse := by
      rw [← List.reverse_reverse s, hs]
      simp
    rw [hsplit, rsplitOnce_append (by simpa using hy)] at h
    cases h
    exact ⟨hsplit, by simpa using hy⟩
  · rw [rsplitOnce, List.splitOn_eq_singleton (by simpa using hc)] at h
    cases h

def splitCrlf : Bytes → List Bytes
  | [] => [[]]
  | 13 :: 10 :: s => [] :: splitCrlf s
  | b :: s => (splitCrlf s).modifyHead (b :: ·)

theorem splitCrlf_ne_nil : ∀ s : Bytes, splitCrlf s ≠ []
  | [] => by simp [splitCrlf]
  | b :: s => by
    unfold splitCrlf
    split
    · rename_i h; cases h
    · simp
    · rename_i h
      cases h
      have := splitCrlf_ne_nil s
      cases hs : splitCrlf s with
      | nil => exact absurd hs this
      | cons => simp

theorem splitCrlf_singleton {l : Bytes} (h : 13 ∉ l ∨ 10 ∉ l) : splitCrlf l = [l] := by
  induction l with
  | nil => rfl
  | cons b l ih =>
    have hcrlf : ∀ t, b = 13 → l = 10 :: t → False := by
      rintro t rfl rfl
      simp at h
    rw [splitCrlf.eq_3 _ _ hcrlf, ih (h.imp (mt (List.mem_cons_of_mem _)) (mt (List.mem_cons_of_mem _)))]
    rfl

/-- Every line followed by its CRLF spells the text followed by one. -/
theorem flatMap_splitCrlf : ∀ s : Bytes, (splitCrlf s).flatMap (· ++ [13, 10]) = s ++ [13, 10]
  | [] => rfl
  | b :: s => by
    unfold splitCrlf
    split
    · rename_i h; cases h
    · rename_i t h
      cases h
      simpa using flatMap_splitCrlf t
    · rename_i h
      cases h
      have ih := flatMap_splitCrlf s
      cases hs : splitCrlf s with
      | nil => exact absurd hs (splitCrlf_ne_nil s)
      | cons l ls =>
        rw [hs] at ih
        simpa using ih

theorem splitCrlf_append : ∀ a b : Bytes, splitCrlf (a ++ 13 :: 10 :: b) = splitCrlf a ++ splitCrlf b
  | [], b => by simp [splitCrlf]
  | [c], b => by
    rw [List.singleton_append, splitCrlf.eq_def]
    split
    · rename_i h; cases h
    · rename_i h; cases h
    · rename_i h
      cases h
      have : splitCrlf [c] = [[c]] := by simp [splitCrlf]
      simp [this, splitCrlf]
  | c :: d :: a, b => by
    by_cases hc : c = 13 ∧ d = 10
    · obtain ⟨rfl, rfl⟩ := hc
      simp [splitCrlf, splitCrlf_append a b]
    · have ih := splitCrlf_append (d :: a) b
      have hcons : ∀ t, splitCrlf (c :: d :: t) = (splitCrlf (d :: t)).modifyHead (c :: ·) := by
        intro t
        rw [splitCrlf.eq_def]
        split
        · rename_i h; cases h
        · rename_i h; cases h; exact absurd ⟨rfl, rfl⟩ hc
        · rename_i h; cases h; rfl
      rw [List.cons_append, List.cons_append, hcons, hcons, ← List.cons_append, ih]
      cases hs : splitCrlf (d :: a) with
      | nil => exact absurd hs (splitCrlf_ne_nil _)
      | cons l ls => simp

/-! ## Trimming -/

/-- White space of one byte: U+0009 to U+000D and U+0020. -/
def isSpace1 (a : UInt8) : Bool := (9 ≤ a && a ≤ 13) || a == 32

/-- White space of two bytes: U+0085 and U+00A0. -/
def isSpace2 (a b : UInt8) : Bool := a == 0xC2 && (b == 0x85 || b == 0xA0)

/-- White space of three bytes: U+1680, U+2000 to U+200A, U+2028, U+2029, U+202F, U+205F, U+3000. -/
def isSpace3 (a b c : UInt8) : Bool :=
  (a == 0xE1 && b == 0x9A && c == 0x80) ||
  (a == 0xE2 && b == 0x80 && ((0x80 ≤ c && c ≤ 0x8A) || c == 0xA8 || c == 0xA9 || c == 0xAF)) ||
  (a == 0xE2 && b == 0x81 && c == 0x9F) ||
  (a == 0xE3 && b == 0x80 && c == 0x80)

def trimStart : Str → Str
  | [] => []
  | a :: s =>
    if isSpace1 a then trimStart s
    else match s with
      | [] => [a]
      | b :: t =>
        if isSpace2 a b then trimStart t
        else match t with
          | [] => [a, b]
          | c :: u => if isSpace3 a b c then trimStart u else a :: b :: c :: u

/-- Drop white space from the front of reversed text. -/
def trimRev : Str → Str
  | [] => []
  | a :: s =>
    if isSpace1 a then trimRev s
    else match s with
      | [] => [a]
      | b :: t =>
        if isSpace2 b a then trimRev t
        else match t with
          | [] => [a, b]
          | c :: u => if isSpace3 c b a then trimRev u else a :: b :: c :: u

def trim (s : Str) : Str := (trimRev (trimStart s).reverse).reverse

theorem trimStart_subset (s : Str) : trimStart s ⊆ s := by
  fun_induction trimStart s with grind

theorem trimRev_subset (s : Str) : trimRev s ⊆ s := by
  fun_induction trimRev s with grind

theorem trim_subset (s : Str) : trim s ⊆ s := by
  intro b hb
  have hb := trimRev_subset _ (List.mem_reverse.1 hb)
  exact trimStart_subset s (List.mem_reverse.1 hb)

/-- The pieces of text between runs of white space. -/
def splitWhitespace (s : Str) : List Str := go [] s
where
  flush (acc : Str) : List Str := if acc = [] then [] else [acc]
  go (acc : Str) : Str → List Str
    | [] => flush acc
    | a :: s =>
      if isSpace1 a then flush acc ++ go [] s
      else match s with
        | [] => flush (acc ++ [a])
        | b :: t =>
          if isSpace2 a b then flush acc ++ go [] t
          else match t with
            | [] => flush (acc ++ [a, b])
            | c :: u => if isSpace3 a b c then flush acc ++ go [] u else go (acc ++ [a]) (b :: c :: u)

theorem isSpace2_ascii {a : UInt8} (h : a < 0x80) (b : UInt8) : isSpace2 a b = false ∧ isSpace2 b a = false := by
  unfold isSpace2
  constructor
  · have : a ≠ 0xC2 := by rintro rfl; exact absurd h (by decide)
    simp [this]
  · have h1 : a ≠ 0x85 := by rintro rfl; exact absurd h (by decide)
    have h2 : a ≠ 0xA0 := by rintro rfl; exact absurd h (by decide)
    simp [h1, h2]

theorem isSpace3_ascii {a : UInt8} (h : a < 0x80) (b c : UInt8) : isSpace3 a b c = false := by
  have h1 : a ≠ 0xE1 := by rintro rfl; exact absurd h (by decide)
  have h2 : a ≠ 0xE2 := by rintro rfl; exact absurd h (by decide)
  have h3 : a ≠ 0xE3 := by rintro rfl; exact absurd h (by decide)
  simp [isSpace3, h1, h2, h3]

theorem isSpace3_ascii_last {c : UInt8} (h : c < 0x80) (a b : UInt8) : isSpace3 a b c = false := by
  have h0 : ¬ (0x80 ≤ c) := UInt8.not_le.2 h
  have h1 : c ≠ 0x80 := by rintro rfl; exact absurd h (by decide)
  have h2 : c ≠ 0xA8 := by rintro rfl; exact absurd h (by decide)
  have h3 : c ≠ 0xA9 := by rintro rfl; exact absurd h (by decide)
  have h4 : c ≠ 0xAF := by rintro rfl; exact absurd h (by decide)
  have h5 : c ≠ 0x9F := by rintro rfl; exact absurd h (by decide)
  simp [isSpace3, h0, h1, h2, h3, h4, h5]

/-- A printable ASCII byte: neither a control byte nor white space. -/
def isGraph (a : UInt8) : Bool := 0x20 < a && a < 0x7F

theorem isGraph_lt {a : UInt8} (h : isGraph a = true) : a < 0x80 := by
  simp only [isGraph, Bool.and_eq_true, decide_eq_true_eq] at h
  exact UInt8.lt_trans h.2 (by decide)

theorem isGraph_not_space {a : UInt8} (h : isGraph a = true) : isSpace1 a = false := by
  simp only [isGraph, Bool.and_eq_true, decide_eq_true_eq, UInt8.lt_iff_toNat_lt] at h
  simp only [isSpace1, Bool.or_eq_false_iff, Bool.and_eq_false_iff, decide_eq_false_iff_not,
    UInt8.le_iff_toNat_le, beq_eq_false_iff_ne, ne_eq, ← UInt8.toNat_inj]
  have h1 := h.1
  simp only [UInt8.reduceToNat] at h1 ⊢
  omega

theorem trimStart_graph {a : UInt8} (h : isGraph a = true) (s : Str) : trimStart (a :: s) = a :: s := by
  unfold trimStart
  rw [isGraph_not_space h]
  rcases s with - | ⟨b, - | ⟨c, u⟩⟩ <;>
    simp [(isSpace2_ascii (isGraph_lt h) _).1, isSpace3_ascii (isGraph_lt h)]

theorem trimRev_graph {a : UInt8} (h : isGraph a = true) (s : Str) : trimRev (a :: s) = a :: s := by
  unfold trimRev
  rw [isGraph_not_space h]
  rcases s with - | ⟨b, - | ⟨c, u⟩⟩ <;>
    simp [(isSpace2_ascii (isGraph_lt h) _).2, isSpace3_ascii_last (isGraph_lt h)]

theorem trim_graph {s : Str} (h : ∀ a ∈ s, isGraph a = true) : trim s = s := by
  have h1 : trimStart s = s := by
    cases s with
    | nil => rfl
    | cons a s => exact trimStart_graph (h a List.mem_cons_self) s
  have h2 : trimRev s.reverse = s.reverse := by
    cases hr : s.reverse with
    | nil => rfl
    | cons a t => exact trimRev_graph (h a (by rw [← List.mem_reverse, hr]; exact List.mem_cons_self)) t
  rw [trim, h1, h2, List.reverse_reverse]

@[simp] theorem trimStart_space (s : Str) : trimStart (32 :: s) = trimStart s := by
  rw [trimStart.eq_def]; simp [isSpace1]

@[simp] theorem trim_space (s : Str) : trim (32 :: s) = trim s := by
  rw [trim, trimStart_space, trim]

/-! ## Case folding -/

def toLower (b : UInt8) : UInt8 := if 65 ≤ b && b ≤ 90 then b + 32 else b

def lower (s : Str) : Str := s.map toLower

def eqIgnoreCase (a b : Str) : Bool := lower a == lower b

def isDigit (b : UInt8) : Bool := 48 ≤ b && b ≤ 57
def isAlpha (b : UInt8) : Bool := (65 ≤ b && b ≤ 90) || (97 ≤ b && b ≤ 122)
def isAlnum (b : UInt8) : Bool := isDigit b || isAlpha b

/-! ## Control bytes -/

/-- A control byte: below U+0020, or DEL. -/
def isControl (b : UInt8) : Bool := b < 0x20 || b == 0x7F

/-- Text without control bytes. -/
def Clean (s : Str) : Prop := ∀ b ∈ s, isControl b = false

theorem clean_iff {s : Str} : Clean s ↔ s.any isControl = false := by
  simp [Clean, List.any_eq_false]

instance (s : Str) : Decidable (Clean s) := decidable_of_iff _ clean_iff.symm

theorem clean_nil : Clean [] := nofun

@[simp] theorem clean_append {s t : Str} : Clean (s ++ t) ↔ Clean s ∧ Clean t := by
  simp only [Clean, List.mem_append]
  exact ⟨fun h => ⟨fun b hb => h b (.inl hb), fun b hb => h b (.inr hb)⟩, fun h b hb => hb.elim (h.1 b) (h.2 b)⟩

theorem clean_cons {b : UInt8} {s : Str} : Clean (b :: s) ↔ isControl b = false ∧ Clean s := by
  simp [Clean]

theorem Clean.subset {s t : Str} (ht : Clean t) (h : s ⊆ t) : Clean s := fun b hb => ht b (h hb)

theorem Clean.no_lf {s : Str} (h : Clean s) : 10 ∉ s := fun hm => absurd (h 10 hm) (by decide)

/-! ## Numerals -/

def ofDigits (ds : List Char) : Str := ds.map fun c => c.toNat.toUInt8

def dec (n : Nat) : Str := ofDigits (Nat.toDigits 10 n)

/-- Lower-case hexadecimal digits. -/
def hex (n : Nat) : Str := ofDigits (Nat.toDigits 16 n)

def digitsVal : Str → Option Nat
  | [] => none
  | s => s.foldl (fun acc b => acc.bind fun n => if isDigit b then some (n * 10 + (b.toNat - 48)) else none) (some 0)

/-- An unsigned integer below `bound`: an optional `+`, then decimal digits. -/
def parseUnsigned (bound : Nat) (s : Str) : Option Nat :=
  let ds := match s with
    | 43 :: t => t
    | t => t
  (digitsVal ds).bind fun n => if n < bound then some n else none

theorem isAlnum_digitChar : ∀ d < 16, isAlnum (Nat.digitChar d).toNat.toUInt8 = true := by decide

theorem isAlnum_of_mem_digits {base : Nat} (hb : 1 < base) (hb' : base ≤ 16) (n : Nat) :
    ∀ b ∈ ofDigits (Nat.toDigits base n), isAlnum b = true := by
  induction n using Nat.strong_induction_on with
  | _ n ih =>
    intro b hm
    rw [Nat.toDigits_eq_if hb] at hm
    split at hm
    · rename_i hlt
      have : b = (Nat.digitChar n).toNat.toUInt8 := by simpa [ofDigits] using hm
      rw [this]
      exact isAlnum_digitChar n (by omega)
    · rename_i hge
      simp only [ofDigits, List.map_append, List.mem_append, List.map_cons, List.map_nil, List.mem_singleton] at hm
      rcases hm with hm | rfl
      · exact ih (n / base) (Nat.div_lt_self (by omega) hb) b hm
      · exact isAlnum_digitChar _ (lt_of_lt_of_le (Nat.mod_lt n (by omega)) hb')

theorem isAlnum_of_mem_dec {n : Nat} {b : UInt8} (h : b ∈ dec n) : isAlnum b = true :=
  isAlnum_of_mem_digits (by decide) (by decide) n b h

theorem isAlnum_of_mem_hex {n : Nat} {b : UInt8} (h : b ∈ hex n) : isAlnum b = true :=
  isAlnum_of_mem_digits (by decide) (by decide) n b h

/-- Letters and digits are neither control bytes nor separators. -/
theorem isAlnum_iff {b : UInt8} : isAlnum b = true ↔
    (48 ≤ b.toNat ∧ b.toNat ≤ 57) ∨ (65 ≤ b.toNat ∧ b.toNat ≤ 90) ∨ (97 ≤ b.toNat ∧ b.toNat ≤ 122) := by
  simp only [isAlnum, isDigit, isAlpha, Bool.or_eq_true, Bool.and_eq_true, decide_eq_true_eq,
    UInt8.le_iff_toNat_le, UInt8.reduceToNat]

theorem isControl_of_isAlnum {b : UInt8} (h : isAlnum b = true) : isControl b = false := by
  rw [isAlnum_iff] at h
  simp only [isControl, Bool.or_eq_false_iff, decide_eq_false_iff_not, beq_eq_false_iff_ne, ne_eq,
    UInt8.lt_iff_toNat_lt, ← UInt8.toNat_inj, UInt8.reduceToNat]
  omega

theorem clean_dec (n : Nat) : Clean (dec n) := fun _ h => isControl_of_isAlnum (isAlnum_of_mem_dec h)

theorem clean_hex (n : Nat) : Clean (hex n) := fun _ h => isControl_of_isAlnum (isAlnum_of_mem_hex h)

theorem digitByte_injective : ∀ d < 16, ∀ e < 16, (Nat.digitChar d).toNat.toUInt8 = (Nat.digitChar e).toNat.toUInt8 → d = e := by
  decide

/-- Two numbers are written the same only when they are. -/
theorem digits_injective {base : Nat} (hb : 1 < base) (hb' : base ≤ 16) {m n : Nat}
    (h : ofDigits (Nat.toDigits base m) = ofDigits (Nat.toDigits base n)) : m = n := by
  have hne : ∀ k, ofDigits (Nat.toDigits base k) ≠ [] := fun k hk => Nat.toDigits_ne_nil (List.map_eq_nil_iff.1 hk)
  induction m using Nat.strong_induction_on generalizing n with
  | _ m ih =>
    rw [Nat.toDigits_eq_if hb, Nat.toDigits_eq_if hb (n := n)] at h
    by_cases hm : m < base
    · by_cases hn : n < base
      · rw [if_pos hm, if_pos hn] at h
        exact digitByte_injective m (by omega) n (by omega) (List.cons.inj h).1
      · rw [if_pos hm, if_neg hn, ofDigits, ofDigits, List.map_append] at h
        obtain ⟨hnil, -⟩ := @List.append_inj' _ [] _ _ _ h rfl
        exact absurd hnil.symm (hne _)
    · by_cases hn : n < base
      · rw [if_neg hm, if_pos hn, ofDigits, ofDigits, List.map_append] at h
        obtain ⟨hnil, -⟩ := @List.append_inj' _ _ _ [] _ h rfl
        exact absurd hnil (hne _)
      · -- the last digits agree, and so do the quotients
        rw [if_neg hm, if_neg hn, ofDigits, ofDigits, List.map_append, List.map_append] at h
        obtain ⟨hfront, hlast⟩ := List.append_inj' h rfl
        have hquot := ih (m / base) (Nat.div_lt_self (by omega) hb) hfront
        have hmod : ∀ k, k % base < 16 := fun k => lt_of_lt_of_le (Nat.mod_lt k (by omega)) hb'
        have hrem := digitByte_injective _ (hmod m) _ (hmod n) (List.cons.inj hlast).1
        rw [← Nat.div_add_mod m base, hquot, hrem, Nat.div_add_mod]

theorem dec_injective {m n : Nat} (h : dec m = dec n) : m = n := digits_injective (by decide) (by decide) h

theorem hex_injective {m n : Nat} (h : hex m = hex n) : m = n := digits_injective (by decide) (by decide) h

end BareServer.Lib
