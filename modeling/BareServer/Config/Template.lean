/-
Target templates as tokens: bytes, `$0` and `$1`. Expansion fills the two references in; what stands
before the query and fragment of a target expands to the path of its destination.
-/
import BareServer.Config.Redirects

namespace BareServer

open BareServer.Lib

/-- A byte, the whole path, or what the pattern captured. -/
inductive Tok where
  | byte (b : UInt8)
  | whole
  | rest
  deriving DecidableEq

def tokens : Str → List Tok
  | [] => []
  | 36 :: 48 :: t => .whole :: tokens t
  | 36 :: 49 :: t => .rest :: tokens t
  | 36 :: 36 :: t => .byte 36 :: tokens t
  | c :: t => .byte c :: tokens t

/-! ## Filling -/

def Tok.fill (path cap : Str) : Tok → Str
  | .byte b => [b]
  | .whole => path
  | .rest => cap

/-- The references filled in. -/
def fill (path cap : Str) (ts : List Tok) : Str := ts.flatMap (Tok.fill path cap)

section

variable {path cap : Str}

@[simp] theorem fill_nil : fill path cap [] = [] := rfl

@[simp] theorem fill_cons (t : Tok) (ts : List Tok) : fill path cap (t :: ts) = t.fill path cap ++ fill path cap ts :=
  List.flatMap_cons

@[simp] theorem fill_append (ts us : List Tok) : fill path cap (ts ++ us) = fill path cap ts ++ fill path cap us :=
  List.flatMap_append

@[simp] theorem fill_bytes (s : Str) : fill path cap (s.map .byte) = s := by
  induction s with
  | nil => rfl
  | cons b s ih => simp [Tok.fill, ih]

theorem expandFrom_eq (t : Str) : expandFrom path cap t = fill path cap (tokens t) := by
  induction t using expandFrom.induct with
  | case1 => rfl
  | case2 t ih => simp [expandFrom, tokens, Tok.fill, ih]
  | case3 t ih => simp [expandFrom, tokens, Tok.fill, ih]
  | case4 t ih => simp [expandFrom, tokens, Tok.fill, ih]
  | case5 c t h1 h2 h3 ih =>
    rw [expandFrom, tokens, fill_cons, ih]
    · rfl
    all_goals assumption

/-- A template without a dollar is its own bytes. -/
theorem tokens_of_no_dollar {t : Str} (h : 36 ∉ t) : tokens t = t.map .byte := by
  induction t with
  | nil => rfl
  | cons c t ih =>
    have hc : c ≠ 36 := fun he => h (he ▸ List.mem_cons_self)
    rw [tokens, ih fun hm => h (List.mem_cons_of_mem _ hm), List.map_cons]
    all_goals intro _ he; exact absurd he hc

theorem expand_eq (t : Str) : expand t path cap = fill path cap (tokens t) := by
  unfold expand
  split
  · rename_i h
    rw [tokens_of_no_dollar (by simpa using h), fill_bytes]
  · exact expandFrom_eq t

end

/-! ## The path of a target -/

/-- The bytes that end the path of a reference: `?` and `#`. -/
def endsPath (b : UInt8) : Bool := b == 63 || b == 35

def Tok.endsPath : Tok → Bool
  | .byte b => BareServer.endsPath b
  | _ => false

/-- Text up to its query and fragment. -/
def bareOf (s : Str) : Str := s.takeWhile fun b => !endsPath b

/-- The tokens up to the query and fragment of a target. -/
def pathToks (target : Str) : List Tok := (tokens target).takeWhile fun t => !t.endsPath

/-- The bytes before the first reference. -/
def leading : List Tok → Str
  | .byte b :: ts => b :: leading ts
  | _ => []

/-- Text without a query or a fragment. -/
def Bare (s : Str) : Prop := ∀ b ∈ s, endsPath b = false

theorem bare_iff {s : Str} : Bare s ↔ s.any endsPath = false := by
  simp [Bare, List.any_eq_false]

theorem Bare.subset {s t : Str} (ht : Bare t) (h : s ⊆ t) : Bare s := fun b hb => ht b (h hb)

theorem bareOf_bare (s : Str) : Bare (bareOf s) := by
  intro b hb
  have := List.all_eq_true.1 (List.all_takeWhile (l := s) (p := fun b => !endsPath b)) b hb
  simpa using this

/-- Bare text in front stays. -/
theorem bareOf_append {s : Str} (hs : Bare s) (u : Str) : bareOf (s ++ u) = s ++ bareOf u :=
  List.takeWhile_append_of_pos fun b hb => by simp [hs b hb]

/-- Filled in with bare text, what is left of a target is its own path. -/
theorem bareOf_fill {path cap : Str} (hp : Bare path) (hc : Bare cap) (ts : List Tok) :
    bareOf (fill path cap ts) = fill path cap (ts.takeWhile fun t => !t.endsPath) := by
  induction ts with
  | nil => rfl
  | cons t ts ih =>
    rw [fill_cons, List.takeWhile_cons]
    cases t with
    | whole => rw [Tok.fill, bareOf_append hp, ih]; rfl
    | rest => rw [Tok.fill, bareOf_append hc, ih]; rfl
    | byte b =>
      by_cases hb : endsPath b = true
      · simp [Tok.fill, Tok.endsPath, bareOf, hb]
      · rw [Bool.not_eq_true] at hb
        have hbare : Bare [b] := fun x hx => by rw [List.mem_singleton.1 hx]; exact hb
        rw [Tok.fill, bareOf_append hbare, ih]
        simp [Tok.endsPath, Tok.fill, hb]

theorem loopsForever_eq {target path cap : Str} : loopsForever target path cap = true ↔
    isAbsolute target = false ∧ bareOf (expand target path cap) = path := by
  unfold loopsForever bareOf endsPath
  cases isAbsolute target with
  | true => simp
  | false => simp [bne]

/-- A target loops at a path when, filled in, its own path is that path. -/
theorem loopsForever_iff {target path cap : Str} (hcap : Bare path → Bare cap) :
    loopsForever target path cap = true ↔
      isAbsolute target = false ∧ Bare path ∧ fill path cap (pathToks target) = path := by
  rw [loopsForever_eq, expand_eq]
  constructor
  · rintro ⟨habs, h⟩
    have hp : Bare path := h ▸ bareOf_bare _
    exact ⟨habs, hp, by rw [pathToks, ← bareOf_fill hp (hcap hp), h]⟩
  · rintro ⟨habs, hp, h⟩
    exact ⟨habs, by rw [bareOf_fill hp (hcap hp)]; exact h⟩

end BareServer
