/-
White space at the ends of a text, and the pieces of a text. A trimmed text is the text between two
runs of white space, and such runs make no difference to what is trimmed: not by itself, and not
piece by piece after a split. A piece stands between two separators or at an end.
-/
import BareServer.Lib.Bytes

namespace BareServer.Lib

/-! ## Runs of white space -/

/-- Text of white space characters only. -/
inductive Spaces : Str → Prop
  | nil : Spaces []
  | one {a : UInt8} {s : Str} (h : isSpace1 a = true) (hs : Spaces s) : Spaces (a :: s)
  | two {a b : UInt8} {s : Str} (h : isSpace2 a b = true) (hs : Spaces s) : Spaces (a :: b :: s)
  | three {a b c : UInt8} {s : Str} (h : isSpace3 a b c = true) (hs : Spaces s) : Spaces (a :: b :: c :: s)

/-- A byte that begins a white space character. -/
def leadsSpace (a : UInt8) : Bool := isSpace1 a || a == 0xC2 || a == 0xE1 || a == 0xE2 || a == 0xE3

theorem isSpace2_lead {a b : UInt8} (h : isSpace2 a b = true) : a = 0xC2 ∧ leadsSpace b = false := by
  simp only [isSpace2, Bool.and_eq_true, Bool.or_eq_true, beq_iff_eq] at h
  obtain ⟨rfl, rfl | rfl⟩ := h <;> decide

theorem isSpace3_lead {a b c : UInt8} (h : isSpace3 a b c = true) :
    (a = 0xE1 ∨ a = 0xE2 ∨ a = 0xE3) ∧ leadsSpace b = false ∧ leadsSpace c = false := by
  simp only [isSpace3, Bool.and_eq_true, Bool.or_eq_true, beq_iff_eq, decide_eq_true_eq] at h
  have hc : ∀ c : UInt8, (0x80 ≤ c ∧ c ≤ 0x8A) → leadsSpace c = false := by
    intro c hc
    simp only [UInt8.le_iff_toNat_le, UInt8.reduceToNat] at hc
    simp only [leadsSpace, isSpace1, Bool.or_eq_false_iff, Bool.and_eq_false_iff, decide_eq_false_iff_not,
      beq_eq_false_iff_ne, ne_eq, UInt8.le_iff_toNat_le, ← UInt8.toNat_inj, UInt8.reduceToNat]
    omega
  rcases h with ((⟨⟨rfl, rfl⟩, rfl⟩ | ⟨⟨rfl, rfl⟩, h⟩) | ⟨⟨rfl, rfl⟩, rfl⟩) | ⟨⟨rfl, rfl⟩, rfl⟩
  · decide
  · refine ⟨by decide, by decide, ?_⟩
    rcases h with ((h | rfl) | rfl) | rfl
    · exact hc c h
    all_goals decide
  · decide
  · decide

theorem isSpace1_of_lead {a : UInt8} (h : leadsSpace a = false) : isSpace1 a = false := by
  simp only [leadsSpace, Bool.or_eq_false_iff] at h
  exact h.1.1.1.1

/-- No ASCII byte but white space stands in a run. -/
theorem Spaces.not_mem {w : Str} (h : Spaces w) {c : UInt8} (hc : isGraph c = true) : c ∉ w := by
  have hascii := isGraph_lt hc
  have hne : ∀ {x : UInt8}, ¬ x < 0x80 → c ≠ x := fun hx he => hx (he ▸ hascii)
  induction h with
  | nil => exact List.not_mem_nil
  | @one a s ha _ ih =>
    rintro (_ | ⟨_, hm⟩)
    · rw [isGraph_not_space hc] at ha
      cases ha
    · exact ih hm
  | @two a b s hab _ ih =>
    rintro (_ | ⟨_, _ | ⟨_, hm⟩⟩)
    · rw [(isSpace2_ascii hascii _).1] at hab
      cases hab
    · rw [(isSpace2_ascii hascii _).2] at hab
      cases hab
    · exact ih hm
  | @three a b d s habd _ ih =>
    rintro (_ | ⟨_, _ | ⟨_, _ | ⟨_, hm⟩⟩⟩)
    · rw [isSpace3_ascii hascii] at habd
      cases habd
    · simp only [isSpace3, Bool.and_eq_true, Bool.or_eq_true, beq_iff_eq] at habd
      rcases habd with ((⟨⟨-, rfl⟩, -⟩ | ⟨⟨-, rfl⟩, -⟩) | ⟨⟨-, rfl⟩, -⟩) | ⟨⟨-, rfl⟩, -⟩ <;> exact absurd hascii (by decide)
    · rw [isSpace3_ascii_last hascii] at habd
      cases habd
    · exact ih hm

theorem Spaces.append {u w : Str} (hu : Spaces u) (hw : Spaces w) : Spaces (u ++ w) := by
  induction hu with
  | nil => exact hw
  | one h _ ih => exact .one h ih
  | two h _ ih => exact .two h ih
  | three h _ ih => exact .three h ih

/-- What a run begins with can begin a character. -/
theorem Spaces.lead {b : UInt8} {s : Str} (h : Spaces (b :: s)) : leadsSpace b = true := by
  cases h with
  | one h _ => simp [leadsSpace, h]
  | two h _ => simp [leadsSpace, (isSpace2_lead h).1]
  | three h _ => rcases (isSpace3_lead h).1 with rfl | rfl | rfl <;> decide

/-! ## Trimming one end -/

theorem trimStart_one {a : UInt8} (h : isSpace1 a = true) (s : Str) : trimStart (a :: s) = trimStart s := by
  rw [trimStart.eq_def]
  simp [h]

theorem trimStart_two {a b : UInt8} (h : isSpace2 a b = true) (s : Str) : trimStart (a :: b :: s) = trimStart s := by
  have ha : isSpace1 a = false := by rw [(isSpace2_lead h).1]; decide
  rw [trimStart.eq_def]
  simp [ha, h]

theorem trimStart_three {a b c : UInt8} (h : isSpace3 a b c = true) (s : Str) :
    trimStart (a :: b :: c :: s) = trimStart s := by
  have ha : isSpace1 a = false ∧ isSpace2 a b = false := by
    rcases (isSpace3_lead h).1 with rfl | rfl | rfl <;> exact ⟨by decide, by simp [isSpace2]⟩
  rw [trimStart.eq_def]
  simp [ha, h]

theorem trimRev_one {a : UInt8} (h : isSpace1 a = true) (s : Str) : trimRev (a :: s) = trimRev s := by
  rw [trimRev.eq_def]
  simp [h]

theorem trimRev_two {a b : UInt8} (h : isSpace2 a b = true) (s : Str) : trimRev (b :: a :: s) = trimRev s := by
  have hb := isSpace1_of_lead (isSpace2_lead h).2
  rw [trimRev.eq_def]
  simp [hb, h]

theorem trimRev_three {a b c : UInt8} (h : isSpace3 a b c = true) (s : Str) :
    trimRev (c :: b :: a :: s) = trimRev s := by
  obtain ⟨-, hb, hc⟩ := isSpace3_lead h
  have hc := isSpace1_of_lead hc
  have hbc : isSpace2 b c = false := Bool.eq_false_iff.2 fun h => by
    rw [(isSpace2_lead h).1] at hb
    exact absurd hb (by decide)
  rw [trimRev.eq_def]
  simp [hc, hbc, h]

theorem trimStart_spaces {w : Str} (h : Spaces w) (t : Str) : trimStart (w ++ t) = trimStart t := by
  induction h with
  | nil => rfl
  | one h _ ih => rw [List.cons_append, trimStart_one h, ih]
  | two h _ ih => rw [List.cons_append, List.cons_append, trimStart_two h, ih]
  | three h _ ih => rw [List.cons_append, List.cons_append, List.cons_append, trimStart_three h, ih]

theorem trimRev_spaces {w : Str} (h : Spaces w) : ∀ t : Str, trimRev (w.reverse ++ t) = trimRev t := by
  induction h with
  | nil => exact fun t => rfl
  | one h _ ih =>
    intro t
    rw [List.reverse_cons, List.append_assoc, ih, List.singleton_append, trimRev_one h]
  | two h _ ih =>
    intro t
    simp only [List.reverse_cons, List.append_assoc, List.singleton_append]
    rw [ih, List.cons_append, List.singleton_append, trimRev_two h]
  | three h _ ih =>
    intro t
    simp only [List.reverse_cons, List.append_assoc, List.singleton_append]
    rw [ih, List.cons_append, List.singleton_append, trimRev_three h]

theorem trimStart_split (s : Str) : ∃ w, Spaces w ∧ s = w ++ trimStart s := by
  induction s using trimStart.induct with
  | case1 => exact ⟨[], .nil, rfl⟩
  | case2 a s h ih =>
    obtain ⟨w, hw, hs⟩ := ih
    exact ⟨a :: w, .one h hw, by rw [trimStart_one h, List.cons_append, ← hs]⟩
  | case3 a h => exact ⟨[], .nil, by rw [trimStart.eq_def]; simp [h]⟩
  | case4 a h b t hab ih =>
    obtain ⟨w, hw, hs⟩ := ih
    exact ⟨a :: b :: w, .two hab hw, by rw [trimStart_two hab, List.cons_append, List.cons_append, ← hs]⟩
  | case5 a h b hab => exact ⟨[], .nil, by rw [trimStart.eq_def]; simp [h, hab]⟩
  | case6 a h b hab c u habc ih =>
    obtain ⟨w, hw, hs⟩ := ih
    refine ⟨a :: b :: c :: w, .three habc hw, ?_⟩
    rw [trimStart_three habc, List.cons_append, List.cons_append, List.cons_append, ← hs]
  | case7 a h b hab c u habc => exact ⟨[], .nil, by rw [trimStart.eq_def]; simp [h, hab, habc]⟩

/-- What is dropped from the end is white space. -/
theorem trimRev_split (s : Str) : ∃ w, Spaces w ∧ s = w.reverse ++ trimRev s := by
  induction s using trimRev.induct with
  | case1 => exact ⟨[], .nil, rfl⟩
  | case2 a s h ih =>
    obtain ⟨w, hw, hs⟩ := ih
    refine ⟨w ++ [a], hw.append (.one h .nil), ?_⟩
    rw [trimRev_one h, List.reverse_append, List.append_assoc, ← hs]
    rfl
  | case3 a h => exact ⟨[], .nil, by rw [trimRev.eq_def]; simp [h]⟩
  | case4 b h a t hab ih =>
    obtain ⟨w, hw, hs⟩ := ih
    refine ⟨w ++ [a, b], hw.append (.two hab .nil), ?_⟩
    rw [trimRev_two hab, List.reverse_append, List.append_assoc, ← hs]
    rfl
  | case5 a h b hab => exact ⟨[], .nil, by rw [trimRev.eq_def]; simp [h, hab]⟩
  | case6 c h b hab a u habc ih =>
    obtain ⟨w, hw, hs⟩ := ih
    refine ⟨w ++ [a, b, c], hw.append (.three habc .nil), ?_⟩
    rw [trimRev_three habc, List.reverse_append, List.append_assoc, ← hs]
    rfl
  | case7 a h b hab c u habc => exact ⟨[], .nil, by rw [trimRev.eq_def]; simp [h, hab, habc]⟩

/-- White space behind a text that is not all white space stays when its front is trimmed. -/
theorem trimStart_append {w : Str} (hw : Spaces w) (s : Str) :
    trimStart (s ++ w) = trimStart s ++ w ∨ Spaces s := by
  have hlead : ∀ {b : UInt8} {w' : Str}, w = b :: w' → leadsSpace b = true := fun he => Spaces.lead (he ▸ hw)
  have htwo : ∀ {a b : UInt8}, leadsSpace b = true → isSpace2 a b = false := fun hb => Bool.eq_false_iff.2 fun h => by
    rw [(isSpace2_lead h).2] at hb
    cases hb
  have hthree : ∀ {a b c : UInt8}, leadsSpace b = true ∨ leadsSpace c = true → isSpace3 a b c = false := fun hbc =>
    Bool.eq_false_iff.2 fun h => by
      rw [(isSpace3_lead h).2.1, (isSpace3_lead h).2.2] at hbc
      rcases hbc with hbc | hbc <;> cases hbc
  induction s using trimStart.induct with
  | case1 => exact .inr .nil
  | case2 a s h ih => exact ih.imp (fun ih => by rw [List.cons_append, trimStart_one h, trimStart_one h, ih]) (.one h)
  | case3 a h =>
    refine .inl ?_
    cases hw' : w with
    | nil => rw [List.append_nil, List.append_nil]
    | cons b w' =>
      have hb := hlead hw'
      rw [trimStart.eq_def, trimStart.eq_def [a]]
      cases w' with
      | nil => simp [h, htwo hb]
      | cons c w' => simp [h, htwo hb, hthree (.inl hb)]
  | case4 a h b t hab ih =>
    refine ih.imp (fun ih => ?_) (.two hab)
    rw [List.cons_append, List.cons_append, trimStart_two hab, trimStart_two hab, ih]
  | case5 a h b hab =>
    refine .inl ?_
    cases hw' : w with
    | nil => rw [List.append_nil, List.append_nil]
    | cons c w' =>
      rw [trimStart.eq_def, trimStart.eq_def [a, b]]
      simp [h, hab, hthree (.inr (hlead hw'))]
  | case6 a h b hab c u habc ih =>
    refine ih.imp (fun ih => ?_) (.three habc)
    rw [List.cons_append, List.cons_append, List.cons_append, trimStart_three habc, trimStart_three habc, ih]
  | case7 a h b hab c u habc =>
    refine .inl ?_
    rw [trimStart.eq_def, trimStart.eq_def (a :: b :: c :: u)]
    simp [h, hab, habc]

/-! ## Trimming both ends -/

theorem trim_spaces {w : Str} (h : Spaces w) : trim w = [] := by
  have hstart := trimStart_spaces h []
  rw [List.append_nil] at hstart
  rw [trim, hstart]
  rfl

theorem trim_append_left {w : Str} (h : Spaces w) (t : Str) : trim (w ++ t) = trim t := by
  rw [trim, trimStart_spaces h, trim]

theorem trim_append_right {w : Str} (h : Spaces w) (t : Str) : trim (t ++ w) = trim t := by
  rcases trimStart_append h t with hstart | ht
  · rw [trim, hstart, List.reverse_append, trimRev_spaces h, trim]
  · rw [trim_spaces (ht.append h), trim_spaces ht]

/-- A text is its trimmed text between two runs of white space. -/
theorem trim_split (s : Str) : ∃ u w, Spaces u ∧ Spaces w ∧ s = u ++ trim s ++ w := by
  obtain ⟨u, hu, hs⟩ := trimStart_split s
  obtain ⟨w, hw, hr⟩ := trimRev_split (trimStart s).reverse
  refine ⟨u, w, hu, hw, ?_⟩
  have hback : trimStart s = trim s ++ w := by
    rw [← List.reverse_reverse (trimStart s), hr, List.reverse_append, List.reverse_reverse, trim]
  rw [List.append_assoc, ← hback]
  exact hs

theorem count_trim {c : UInt8} (hc : isGraph c = true) (s : Str) : (trim s).count c = s.count c := by
  obtain ⟨u, w, hu, hw, hs⟩ := trim_split s
  conv_rhs => rw [hs]
  rw [List.count_append, List.count_append, List.count_eq_zero.2 (hu.not_mem hc), List.count_eq_zero.2 (hw.not_mem hc)]
  omega

theorem trim_trim (s : Str) : trim (trim s) = trim s := by
  obtain ⟨u, w, hu, hw, hs⟩ := trim_split s
  conv_rhs => rw [hs, trim_append_right hw, trim_append_left hu]

theorem trim_between {s t : Str} {a b : UInt8} (ha : isGraph a = true) (hb : isGraph b = true)
    (hs : s = a :: t) (hlast : s.getLast? = some b) : trim s = s := by
  subst hs
  obtain ⟨m, hm⟩ := List.getLast?_eq_some_iff.1 hlast
  rw [trim, trimStart_graph ha, hm, List.reverse_append, List.reverse_singleton, List.singleton_append,
    trimRev_graph hb]
  simp

/-! ## White space at an end -/

def WideSpace (w : Str) : Prop :=
  (∃ a b, w = [a, b] ∧ isSpace2 a b = true) ∨ ∃ a b c, w = [a, b, c] ∧ isSpace3 a b c = true

def SpaceChar (w : Str) : Prop := (∃ a, w = [a] ∧ isSpace1 a = true) ∨ WideSpace w

theorem SpaceChar.spaces {w : Str} (h : SpaceChar w) : Spaces w ∧ w ≠ [] := by
  rcases h with ⟨a, rfl, h⟩ | ⟨a, b, rfl, h⟩ | ⟨a, b, c, rfl, h⟩
  · exact ⟨.one h .nil, List.cons_ne_nil _ _⟩
  · exact ⟨.two h .nil, List.cons_ne_nil _ _⟩
  · exact ⟨.three h .nil, List.cons_ne_nil _ _⟩

/-- A run that is not empty begins and ends with a character. -/
theorem Spaces.ends {w : Str} (h : Spaces w) : w = [] ∨ (∃ e, SpaceChar e ∧ e <+: w) ∧ ∃ e, SpaceChar e ∧ e <:+ w := by
  have hstep : ∀ {e s : Str}, SpaceChar e →
      (s = [] ∨ (∃ e, SpaceChar e ∧ e <+: s) ∧ ∃ e, SpaceChar e ∧ e <:+ s) →
      (∃ e', SpaceChar e' ∧ e' <+: e ++ s) ∧ ∃ e', SpaceChar e' ∧ e' <:+ e ++ s := by
    intro e s he ih
    refine ⟨⟨e, he, List.prefix_append _ _⟩, ?_⟩
    rcases ih with rfl | ⟨-, e', he', hs⟩
    · exact ⟨e, he, by rw [List.append_nil]⟩
    · exact ⟨e', he', hs.trans (List.suffix_append _ _)⟩
  induction h with
  | nil => exact .inl rfl
  | @one a s h _ ih => exact .inr (hstep (.inl ⟨a, rfl, h⟩) ih)
  | @two a b s h _ ih => exact .inr (hstep (.inr (.inl ⟨a, b, rfl, h⟩)) ih)
  | @three a b c s h _ ih => exact .inr (hstep (.inr (.inr ⟨a, b, c, rfl, h⟩)) ih)

/-- A text is its own trimming exactly when no white space character stands at its ends. -/
theorem trim_eq_self_iff {s : Str} : trim s = s ↔ ∀ e, SpaceChar e → ¬ e <+: s ∧ ¬ e <:+ s := by
  constructor
  · intro h e he
    obtain ⟨hw, hne⟩ := he.spaces
    have hshort : ∀ {t : Str}, t.length < s.length → trim s = trim t → False := by
      intro t hlt ht
      obtain ⟨u, w, -, -, hsplit⟩ := trim_split t
      have hlen := congrArg List.length hsplit
      simp only [List.length_append, ← ht, h] at hlen
      omega
    have hpos := List.length_pos_of_ne_nil hne
    constructor
    · rintro ⟨t, rfl⟩
      exact hshort (by rw [List.length_append]; omega) (trim_append_left hw t)
    · rintro ⟨t, rfl⟩
      exact hshort (by rw [List.length_append]; omega) (trim_append_right hw t)
  · intro h
    obtain ⟨u, w, hu, hw, hs⟩ := trim_split s
    rcases hu.ends with rfl | ⟨⟨e, he, hpre⟩, -⟩
    · rcases hw.ends with rfl | ⟨-, e, he, hsuf⟩
      · rw [List.append_nil] at hs
        exact hs.symm
      · exact absurd (hs ▸ hsuf.trans (List.suffix_append _ _)) (h e he).2
    · exact absurd (hs ▸ hpre.trans ((List.prefix_append _ _).trans (List.prefix_append _ _))) (h e he).1

/-! ## Pieces -/

theorem splitOnce_append {c : UInt8} {a : Str} (h : c ∉ a) (b : Str) : splitOnce (a ++ c :: b) [c] = some (a, b) :=
  splitOnce_of_not_mem h [] b

theorem mem_intercalate {α : Type} {b c : α} (hb : b ≠ c) : ∀ {ls : List (List α)}, b ∈ [c].intercalate ls ↔ ∃ l ∈ ls, b ∈ l
  | [] => by simp
  | [l] => by simp
  | l :: l' :: ls => by
    rw [List.intercalate_cons_cons, List.mem_append, List.mem_append, List.mem_singleton, mem_intercalate hb]
    simp [hb]

section
variable {α : Type} [BEq α] [LawfulBEq α] {c : α} {s p : List α}

/-- A separated text is a text between its first and its last separator, which may be one. -/
theorem outer_cuts (h : c ∈ s) :
    ∃ x z, c ∉ x ∧ c ∉ z ∧ (s = x ++ c :: z ∨ ∃ y, s = x ++ c :: (y ++ c :: z)) := by
  obtain ⟨x, r, rfl, hx⟩ := List.eq_append_cons_of_mem h
  by_cases hr : c ∈ r
  · obtain ⟨z, y, hrev, hz⟩ := List.eq_append_cons_of_mem (List.mem_reverse.2 hr)
    have hsplit : r = y.reverse ++ c :: z.reverse := by
      rw [← List.reverse_reverse r, hrev, List.reverse_append, List.reverse_cons, List.append_assoc]
      rfl
    exact ⟨x, z.reverse, hx, fun hm => hz (List.mem_reverse.1 hm), .inr ⟨y.reverse, by rw [hsplit]⟩⟩
  · exact ⟨x, r, hx, hr, .inl rfl⟩

/-- A piece stands between two separators, once the ends of the text count as separators. -/
theorem between_of_mem_splitOn (h : p ∈ s.splitOn c) : ∃ a b, c :: (s ++ [c]) = a ++ c :: (p ++ c :: b) := by
  induction hn : s.length using Nat.strong_induction_on generalizing s with
  | _ n ih =>
    by_cases hs : c ∈ s
    · obtain ⟨x, r, rfl, hx⟩ := List.eq_append_cons_of_mem hs
      rw [List.splitOn_append_cons_self_of_not_mem hx] at h
      rcases List.mem_cons.1 h with rfl | h
      · exact ⟨[], r ++ [c], by simp⟩
      · have hlt : r.length < n := by
          rw [← hn, List.length_append, List.length_cons]
          omega
        obtain ⟨a, b, hab⟩ := ih _ hlt h rfl
        have hsplit : c :: (x ++ c :: r ++ [c]) = c :: x ++ c :: (r ++ [c]) := by simp
        exact ⟨c :: x ++ a, b, by rw [hsplit, hab, List.append_assoc]⟩
    · rw [List.splitOn_eq_singleton hs, List.mem_singleton] at h
      exact ⟨[], [], by rw [h]; rfl⟩

/-- The pieces of a joined list are the pieces of its members. -/
theorem mem_splitOn_intercalate {ls : List (List α)} (hne : ls ≠ []) :
    p ∈ ([c].intercalate ls).splitOn c ↔ ∃ l ∈ ls, p ∈ l.splitOn c := by
  induction ls with
  | nil => exact absurd rfl hne
  | cons l ls ih =>
    cases ls with
    | nil => simp
    | cons l' ls =>
      rw [List.intercalate_cons_cons, List.append_assoc, List.singleton_append, List.splitOn_append_cons_self,
        List.mem_append, ih (List.cons_ne_nil _ _)]
      simp

end

/-- White space in front of a text makes no difference to its pieces once they are trimmed. -/
theorem splitOn_append_left {c : UInt8} (hc : isGraph c = true) {w : Str} (hw : Spaces w) (t : Str) :
    ((w ++ t).splitOn c).map trim = (t.splitOn c).map trim := by
  by_cases hm : c ∈ t
  · obtain ⟨x, y, rfl, hx⟩ := List.eq_append_cons_of_mem hm
    have hwx : c ∉ w ++ x := fun h => (List.mem_append.1 h).elim (hw.not_mem hc) hx
    rw [← List.append_assoc, List.splitOn_append_cons_self_of_not_mem hwx, List.splitOn_append_cons_self_of_not_mem hx,
      List.map_cons, List.map_cons, trim_append_left hw]
  · have hwt : c ∉ w ++ t := fun h => (List.mem_append.1 h).elim (hw.not_mem hc) hm
    rw [List.splitOn_eq_singleton hwt, List.splitOn_eq_singleton hm, List.map_singleton, List.map_singleton,
      trim_append_left hw]

theorem splitOn_append_right {c : UInt8} (hc : isGraph c = true) {w : Str} (hw : Spaces w) (t : Str) :
    ((t ++ w).splitOn c).map trim = (t.splitOn c).map trim := by
  induction hn : t.length using Nat.strong_induction_on generalizing t with
  | _ n ih =>
    by_cases hm : c ∈ t
    · obtain ⟨x, y, rfl, hx⟩ := List.eq_append_cons_of_mem hm
      have hlen : y.length < n := by
        rw [← hn, List.length_append, List.length_cons]
        omega
      rw [List.append_assoc, List.cons_append, List.splitOn_append_cons_self_of_not_mem hx,
        List.splitOn_append_cons_self_of_not_mem hx, List.map_cons, List.map_cons, ih _ hlen y rfl]
    · have htw : c ∉ t ++ w := fun h => (List.mem_append.1 h).elim hm (hw.not_mem hc)
      rw [List.splitOn_eq_singleton htw, List.splitOn_eq_singleton hm, List.map_singleton, List.map_singleton,
        trim_append_right hw]

/-- Trimming a text first makes no difference to its trimmed pieces. -/
theorem splitOn_trim {c : UInt8} (hc : isGraph c = true) (s : Str) :
    ((trim s).splitOn c).map trim = (s.splitOn c).map trim := by
  obtain ⟨u, w, hu, hw, hs⟩ := trim_split s
  conv_rhs => rw [hs, splitOn_append_right hc hw, splitOn_append_left hc hu]

end BareServer.Lib
