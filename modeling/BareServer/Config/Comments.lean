/-
Comments of the config file. A `#` at the start of a line or after white space opens one, and any other
`#` belongs to the value it stands in. The reader looks at the first `#` only, so a line keeps its
comment when an earlier `#` stands inside a value.
-/
import BareServer.Config.Parse
import BareServer.Lib.Trim

namespace BareServer

open BareServer.Lib

/-! ## Where a comment opens -/

/-- A `#` at the start of the line, or right after ASCII white space. -/
def opens (raw : Str) (p : Nat) : Bool :=
  raw[p]? == some 35 && (p == 0 || (raw[p - 1]?.map isAsciiWhitespace).getD false)

/-- The line's text as the format has it: what stands before the first `#` that opens a comment. -/
inductive LineText (raw : Str) : Str → Prop
  | comment {p : Nat} (here : opens raw p = true) (first : ∀ q < p, opens raw q = false) :
    LineText raw (trim (raw.take p))
  | whole (none : ∀ p, opens raw p = false) : LineText raw (trim raw)

theorem hash_of_opens {raw : Str} {p : Nat} (h : opens raw p = true) : raw[p]? = some 35 := by
  rw [opens, Bool.and_eq_true, beq_iff_eq] at h
  exact h.1

theorem firstAt_hash {raw : Str} {p : Nat} :
    FirstAt (str "#") raw p ↔ raw[p]? = some 35 ∧ ∀ q < p, raw[q]? ≠ some 35 := by
  have hat : ∀ q, str "#" <+: raw.drop q ↔ raw[q]? = some 35 := by
    intro q
    rw [show str "#" = [35] by decide, ← List.head?_drop]
    cases raw.drop q with
    | nil => simp
    | cons b s => simp [eq_comm]
  constructor
  · intro h
    exact ⟨(hat p).1 h.occurs, fun q hq => mt (hat q).2 (h.first q hq)⟩
  · rintro ⟨hp, hfirst⟩
    refine ⟨?_, (hat p).2 hp, fun q hq => mt (hat q).1 (hfirst q hq)⟩
    have := (List.getElem?_eq_some_iff.1 hp).1
    omega

theorem LineText.unique {raw t t' : Str} (h : LineText raw t) (h' : LineText raw t') : t = t' := by
  rcases h with @⟨p, here, first⟩ | none
  · rcases h' with @⟨p', here', first'⟩ | none'
    · rcases Nat.lt_trichotomy p p' with hlt | rfl | hlt
      · rw [first' p hlt] at here
        cases here
      · rfl
      · rw [first p' hlt] at here'
        cases here'
    · rw [none' p] at here
      cases here
  · rcases h' with @⟨p', here', first'⟩ | none'
    · rw [none p'] at here'
      cases here'
    · rfl

/-- A `#` left out is a `#` fewer. -/
theorem trim_take_ne {raw : Str} {p : Nat} (h : raw[p]? = some 35) : trim (raw.take p) ≠ trim raw := by
  obtain ⟨hp, hb⟩ := List.getElem?_eq_some_iff.1 h
  intro heq
  have hcount := congrArg (List.count 35) heq
  have hdrop : raw.drop p = 35 :: raw.drop (p + 1) := by rw [List.drop_eq_getElem_cons hp, hb]
  have hsplit : (raw.take p).count 35 + (raw.drop p).count 35 = raw.count 35 := by
    rw [← List.count_append, List.take_append_drop]
  rw [count_trim (by decide), count_trim (by decide)] at hcount
  rw [hdrop, List.count_cons_self] at hsplit
  omega

/-! ## The reader -/

/-- Where the first `#` opens a comment, what stands before it is read; where it does not, the whole
line is. -/
theorem stripComment_first {raw : Str} {p : Nat} (hfirst : FirstAt (str "#") raw p) :
    stripComment raw = if opens raw p then trim (raw.take p) else trim raw := by
  have hhash := (firstAt_hash.1 hfirst).1
  unfold stripComment opens
  rw [indexOf?_some.2 hfirst]
  cases p with
  | zero => simp [hhash, trim, trimStart, trimRev]
  | succ q =>
    simp only [hhash, beq_self_eq_true, Bool.true_and, Nat.add_one_ne_zero, beq_eq_false_iff_ne.2, ne_eq,
      not_false_eq_true, Bool.false_or, Nat.add_sub_cancel]
    exact apply_ite trim _ _ _

theorem stripComment_none {raw : Str} (h : indexOf? (str "#") raw = none) :
    stripComment raw = trim raw ∧ ∀ p, opens raw p = false := by
  refine ⟨by unfold stripComment; rw [h], fun p => Bool.eq_false_iff.2 fun hp => ?_⟩
  obtain ⟨hlt, hb⟩ := List.getElem?_eq_some_iff.1 (hash_of_opens hp)
  refine indexOf?_none.1 h p (by omega) ?_
  rw [show str "#" = [35] by decide, List.drop_eq_getElem_cons hlt, hb]
  exact ⟨_, rfl⟩

/-- The text read is the format's exactly when the first `#` opens a comment or none does. -/
theorem stripComment_lineText_iff (raw : Str) : LineText raw (stripComment raw) ↔
    (∀ p, FirstAt (str "#") raw p → opens raw p = true) ∨ ∀ p, opens raw p = false := by
  cases hi : indexOf? (str "#") raw with
  | none =>
    obtain ⟨heq, hno⟩ := stripComment_none hi
    rw [heq]
    exact ⟨fun _ => .inr hno, fun _ => .whole hno⟩
  | some p =>
    have hfirst := indexOf?_some.1 hi
    have hbefore : ∀ q < p, opens raw q = false := fun q hq =>
      Bool.eq_false_iff.2 fun ho => (firstAt_hash.1 hfirst).2 q hq (hash_of_opens ho)
    rw [stripComment_first hfirst]
    cases hp : opens raw p with
    | true =>
      refine ⟨fun _ => .inl fun q hq => ?_, fun _ => .comment hp hbefore⟩
      rw [indexOf?_some.2 hq] at hi
      cases hi
      exact hp
    | false =>
      constructor
      · intro h
        refine .inr fun q => Bool.eq_false_iff.2 fun hq => ?_
        -- a comment opened further on would have been left out
        have hex : ∃ q, opens raw q = true := ⟨q, hq⟩
        have hleast : LineText raw (trim (raw.take (Nat.find hex))) :=
          .comment (Nat.find_spec hex) fun q hq => Bool.eq_false_iff.2 (Nat.find_min hex hq)
        exact trim_take_ne (hash_of_opens (Nat.find_spec hex)) (hleast.unique h)
      · rintro (h | h)
        · rw [h p hfirst] at hp
          cases hp
        · exact .whole h

/-- A target with a fragment keeps the comment behind it. -/
theorem stripComment_keeps_comment :
    stripComment (str "redirect /a -> /b#top # moved") = str "redirect /a -> /b#top # moved" ∧
    ¬ LineText (str "redirect /a -> /b#top # moved") (stripComment (str "redirect /a -> /b#top # moved")) := by
  refine ⟨by decide, fun h => ?_⟩
  have hleast : LineText (str "redirect /a -> /b#top # moved") (trim ((str "redirect /a -> /b#top # moved").take 22)) :=
    .comment (by decide) (by decide)
  exact absurd (hleast.unique h) (by decide)

end BareServer
