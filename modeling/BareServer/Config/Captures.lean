/-
The capture of a template. `expand` reads a target from the left in units, `$0`, `$1` and `$$`; the
check on an exact rule looks for the text `$1` instead. The two disagree where a `$$` comes before a
`1` and no `$1` unit does.
-/
import BareServer.Config.Template
import BareServer.Config.RedirectSpec

namespace BareServer

open BareServer.Lib

/-! ## The capture in an expansion -/

/-- Some capture makes a difference. -/
def UsesCapture (target path : Str) : Prop := ∃ c c', expand target path c ≠ expand target path c'

theorem fill_of_no_rest {ts : List Tok} (h : .rest ∉ ts) (path c c' : Str) : fill path c ts = fill path c' ts := by
  induction ts with
  | nil => rfl
  | cons t ts ih =>
    rw [fill_cons, fill_cons, ih fun hm => h (List.mem_cons_of_mem _ hm)]
    cases t with
    | byte b => rfl
    | whole => rfl
    | rest => exact absurd List.mem_cons_self h

/-- What is filled in is as much longer as the capture, for every `$1`. -/
theorem length_fill (path c : Str) (ts : List Tok) :
    (fill path c ts).length = (fill path [] ts).length + ts.count .rest * c.length := by
  induction ts with
  | nil => simp
  | cons t ts ih =>
    rw [fill_cons, fill_cons, List.length_append, List.length_append, ih, List.count_cons]
    cases t with
    | byte b => simp [Tok.fill, Nat.add_assoc]
    | whole => simp [Tok.fill, Nat.add_assoc]
    | rest => simp [Tok.fill]; ring

/-- The capture shows exactly in a target that has a `$1` unit. -/
theorem usesCapture_iff {target path : Str} : UsesCapture target path ↔ .rest ∈ tokens target := by
  constructor
  · rintro ⟨c, c', hne⟩
    by_contra hno
    rw [expand_eq, expand_eq] at hne
    exact hne (fill_of_no_rest hno path c c')
  · intro hm
    refine ⟨[], [0], fun heq => ?_⟩
    rw [expand_eq, expand_eq] at heq
    have hlen := congrArg List.length heq
    have hpos : 0 < (tokens target).count .rest := List.count_pos_iff.2 hm
    rw [length_fill path [0], List.length_singleton] at hlen
    omega

/-! ## The check -/

/-- The two bytes `$1` stand somewhere in the text. -/
theorem containsStr_cons {b : UInt8} {s needle : Str} (h : containsStr s needle = true) :
    containsStr (b :: s) needle = true := by
  unfold containsStr indexOf? at *
  split
  · rfl
  · rw [Option.isSome_map]
    cases s <;> exact h

theorem containsStr_prefix {s needle : Str} (h : needle <+: s) : containsStr s needle = true := by
  cases s with
  | nil =>
    rw [List.prefix_nil] at h
    subst h
    rfl
  | cons b s =>
    unfold containsStr indexOf?
    rw [if_pos h]
    rfl

/-- A `$1` unit is written with the text `$1`. -/
theorem containsStr_of_rest {t : Str} (h : .rest ∈ tokens t) : containsStr t (str "$1") = true := by
  induction t using tokens.induct with
  | case1 => cases h
  | case2 t ih =>
    rw [tokens, List.mem_cons] at h
    exact containsStr_cons (containsStr_cons (ih (h.resolve_left fun he => by cases he)))
  | case3 t ih => exact containsStr_prefix ⟨t, by simp [show str "$1" = [36, 49] by decide]⟩
  | case4 t ih =>
    rw [tokens, List.mem_cons] at h
    exact containsStr_cons (containsStr_cons (ih (h.resolve_left fun he => by cases he)))
  | case5 c t h1 h2 h3 ih =>
    rw [tokens, List.mem_cons] at h
    · exact containsStr_cons (ih (h.resolve_left fun he => by cases he))
    all_goals assumption

namespace Redirects

/-- The rejection of an exact rule for its capture. -/
def captureError (pattern : Str) : Str :=
  str "redirect: $1 has no value in the exact rule '" ++ pattern ++ str "' (use $0 for the whole path)"

/-- Every other check of an exact rule passes. -/
structure OtherwiseOk (r : Redirects) (pattern target : Str) : Prop where
  checked : checkTarget target = .ok ()
  rooted : str "/" <+: pattern
  noStar : 42 ∉ pattern
  moves : loopsForever target pattern [] = false
  fresh : r.exact.lookup pattern = none

/-- A pattern without a star is an exact one. -/
theorem push_exact {r : Redirects} {pattern target : Str} (htarget : checkTarget target = .ok ())
    (hroot : str "/" <+: pattern) (hstar : 42 ∉ pattern) : r.push pattern target = r.pushExact pattern target := by
  have hne : pattern ≠ str "*" := by
    rintro rfl
    exact absurd hstar (by decide)
  have hsuffix : (str "*").isSuffixOf? pattern = none := by
    rw [Option.eq_none_iff_forall_ne_some]
    intro pre hpre
    apply hstar
    rw [← List.isSuffixOf?_eq_some_iff_append_eq.1 hpre, show str "*" = [42] by decide]
    exact List.mem_append_right _ List.mem_cons_self
  unfold push
  simp [htarget, hne, hroot, hsuffix]

/-- An otherwise good exact rule is rejected exactly for the text `$1`. -/
theorem OtherwiseOk.rejected_iff {r : Redirects} {pattern target : Str} (h : r.OtherwiseOk pattern target) :
    r.push pattern target = .error (captureError pattern) ↔ containsStr target (str "$1") = true := by
  rw [push_exact h.checked h.rooted h.noStar]
  unfold pushExact
  rw [if_neg (by simpa using h.noStar), if_neg (by simp [h.moves])]
  constructor
  · intro hp
    by_contra hno
    rw [if_neg hno, h.fresh] at hp
    cases hp
  · intro hc
    rw [if_pos hc]
    rfl

/-- The check of exact rules agrees with expansion on a target exactly when the target has a `$1` unit or
does not hold the text `$1` at all. Expansion fills in a target's units, for every rule. -/
theorem captureCheck_agrees_iff {r : Redirects} {pattern target : Str} (h : r.OtherwiseOk pattern target) :
    ((r.push pattern target = .error (captureError pattern) ↔ UsesCapture target pattern) ∧
        (UsesCapture target pattern ↔ .rest ∈ tokens target) ↔
      (.rest ∈ tokens target ∨ containsStr target (str "$1") = false)) ∧
    ∀ (rules accepted : Redirects) (rule template path cap : Str), rules.push rule template = .ok accepted →
      expand template path cap = fill path cap (tokens template) := by
  refine ⟨?_, fun _ _ _ template _ _ _ => expand_eq template⟩
  rw [h.rejected_iff, usesCapture_iff]
  constructor
  · rintro ⟨hagree, -⟩
    cases hc : containsStr target (str "$1") with
    | true => exact .inl (hagree.1 hc)
    | false => exact .inr rfl
  · rintro (hm | hno)
    · exact ⟨⟨fun _ => hm, containsStr_of_rest⟩, Iff.rfl⟩
    · refine ⟨⟨fun hc => ?_, containsStr_of_rest⟩, Iff.rfl⟩
      rw [hno] at hc
      cases hc

/-- An exact rule for the capture is rejected, and its target has a use for one; and a rule that is accepted. -/
theorem captureCheck_agrees_capture :
    (default : Redirects).OtherwiseOk (str "/old") (str "/new/$$$1") ∧
    (default : Redirects).push (str "/old") (str "/new/$$$1") = .error (captureError (str "/old")) ∧
    UsesCapture (str "/new/$$$1") (str "/old") ∧
    expand (str "/cost$$$0") (str "/old") [] = fill (str "/old") [] (tokens (str "/cost$$$0")) := by
  have hok : (default : Redirects).OtherwiseOk (str "/old") (str "/new/$$$1") :=
    ⟨rfl, by decide, by decide, by decide, by decide⟩
  have hrejected := hok.rejected_iff.2 (by decide)
  obtain ⟨hagrees, hexpand⟩ := captureCheck_agrees_iff hok
  have hsame := (hagrees.2 (.inl (by decide))).1
  exact ⟨hok, hrejected, hsame.1 hrejected, hexpand default _ (str "/old") (str "/cost$$$0") _ _ rfl⟩

/-- A literal dollar before a `1` is taken for the capture. -/
theorem captureCheck_literal_dollar :
    (default : Redirects).OtherwiseOk (str "/old") (str "/usd$$100") ∧
    (default : Redirects).push (str "/old") (str "/usd$$100") = .error (captureError (str "/old")) ∧
    ¬ UsesCapture (str "/usd$$100") (str "/old") ∧ expand (str "/usd$$100") (str "/old") [] = str "/usd$100" := by
  have hok : (default : Redirects).OtherwiseOk (str "/old") (str "/usd$$100") :=
    ⟨rfl, by decide, by decide, by decide, by decide⟩
  refine ⟨hok, hok.rejected_iff.2 (by decide), ?_, by decide⟩
  rw [usesCapture_iff]
  decide

end Redirects
end BareServer
