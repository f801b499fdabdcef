/-
The percent codec between raw paths and decoded ones. An encoded path is text that the generic syntax of a
URI allows in a path, the decoder takes it back, and so every spelling of a path is encoded again to the
same one.
-/
import BareServer.Serve.InRange
import BareServer.Lib.Spelling

namespace BareServer

open BareServer.Lib

/-! ## Path text -/

def isUnreserved (b : UInt8) : Bool := isAlnum b || (str "-._~").contains b

def isSubDelim (b : UInt8) : Bool := (str "!$&'()*+,;=").contains b

/-- The characters of a path segment that are no escape. -/
def isPchar (b : UInt8) : Bool := isUnreserved b || isSubDelim b || b == 58 || b == 64

def isUpperHex (b : UInt8) : Bool := (48 ≤ b && b ≤ 57) || (65 ≤ b && b ≤ 70)

/-- Segment characters, separators and upper-case escapes. -/
inductive PathText : Str → Prop
  | nil : PathText []
  | char {b : UInt8} {t : Str} : isPchar b = true ∨ b = 47 → PathText t → PathText (b :: t)
  | escape {hi lo : UInt8} {t : Str} : isUpperHex hi = true → isUpperHex lo = true → PathText t →
      PathText (37 :: hi :: lo :: t)

/-- What is encoded as it is: segment characters and separators. -/
theorem isBare_iff {b : UInt8} : isBare b = true ↔ isPchar b = true ∨ b = 47 :=
  forall_byte (P := fun b => isBare b = true ↔ isPchar b = true ∨ b = 47) (by decide +kernel) b

theorem isUpperHex_hexDigit {n : UInt8} (h : n.toNat < 16) : isUpperHex (hexDigit n) = true :=
  forall_nibble (P := fun n => isUpperHex (hexDigit n) = true) (by decide) h

theorem pathText_percentEncodePath : ∀ s : Str, PathText (percentEncodePath s)
  | [] => .nil
  | b :: s => by
    have hrest := pathText_percentEncodePath s
    show PathText (encodeByte b ++ percentEncodePath s)
    unfold encodeByte
    split
    · rename_i hb
      exact .char (isBare_iff.1 hb) hrest
    · exact .escape (isUpperHex_hexDigit (high_lt b)) (isUpperHex_hexDigit (low_lt b)) hrest

/-! ## Spellings -/

/-- The path that a raw path spells. -/
def decodedPath (p : Str) : Option Str := (percentDecode p).bind fromUtf8

/-- A raw path, decoded and encoded again. -/
def recode (p : Str) : Option Str := respell decodedPath percentEncodePath p

theorem decodedPath_eq_some {p d : Str} : decodedPath p = some d ↔ percentDecode p = some d ∧ isUtf8 d = true :=
  bind_fromUtf8_eq_some

/-- The decoder takes back what is encoded of a path that it decoded. -/
theorem readsBack_path : ReadsBack decodedPath percentEncodePath := by
  intro p d hp
  obtain ⟨hbytes, htext⟩ := decodedPath_eq_some.1 hp
  exact decode_encoded (clean_of_percentDecode hbytes).2 htext

/-! ## The codec -/

/-- What the two byte loops do, none of whose indices is out of range. Text without control bytes is encoded to path text
and decoded to itself, and of the spellings of a path, all recoded alike and otherwise than those of another path, its
encoding alone is recoded to itself. -/
theorem percent_codec :
    (∀ s, Checked.percentEncodePath s = .ok (percentEncodePath s) ∧ Checked.percentDecode s = .ok (percentDecode s)) ∧
    (∀ s : Str, (∀ b ∈ s, ¬ b < 0x20 ∧ b ≠ 0x7F) → percentDecode (percentEncodePath s) = some s) ∧
    (∀ s, PathText (percentEncodePath s) ∧
      ∀ b ∈ percentEncodePath s, b ≠ 63 ∧ b ≠ 35 ∧ b ≠ 32 ∧ ¬ b < 0x20 ∧ b ≠ 0x7F) ∧
    ∀ p d, percentDecode p = some d → isUtf8 d = true →
      recode (percentEncodePath d) = some (percentEncodePath d) ∧
      (∀ q d', percentDecode q = some d' → isUtf8 d' = true → (recode q = recode p ↔ d' = d)) ∧
      ∃! c, decodedPath c = some d ∧ recode c = some c := by
  have hcontrol : ∀ b : UInt8, isControl b = false ↔ ¬ b < 0x20 ∧ b ≠ 0x7F := by
    intro b
    simp [isControl]
  refine ⟨fun s => ⟨Checked.percentEncodePath_ok s, Checked.percentDecode_ok s⟩, fun s hs => ?_, fun s => ⟨?_, ?_⟩, ?_⟩
  · exact percentDecode_percentEncodePath fun b hb => (hcontrol b).2 (hs b hb)
  · exact pathText_percentEncodePath s
  · intro b hb
    have henc := mem_percentEncodePath hb
    obtain ⟨hclean, hspace, hquery, -⟩ := isEncoded_spec henc
    have hhash : b ≠ 35 := by
      rintro rfl
      exact absurd henc (by decide)
    exact ⟨hquery, hhash, hspace, (hcontrol b).1 hclean⟩
  · intro p d hd htext
    have hp := decodedPath_eq_some.2 ⟨hd, htext⟩
    refine ⟨readsBack_path.respell_write hp, fun q d' hd' htext' => ?_, readsBack_path.existsUnique_fixed hp⟩
    exact readsBack_path.respell_eq_iff (decodedPath_eq_some.2 ⟨hd', htext'⟩) hp

/-- Escapes in either case, an escaped letter and a raw one. -/
theorem percent_codec_cafe : recode (str "/%63af%c3%A9") = recode (str "/caf" ++ [0xC3, 0xA9]) ∧
    recode (str "/caf%C3%A9") = some (str "/caf%C3%A9") := by
  have h := percent_codec.2.2.2 (str "/caf" ++ [0xC3, 0xA9]) (str "/caf" ++ [0xC3, 0xA9]) (by decide) (by decide)
  exact ⟨(h.2.1 (str "/%63af%c3%A9") (str "/caf" ++ [0xC3, 0xA9]) (by decide) (by decide)).2 rfl, h.1⟩

end BareServer
