/-
The entity-tags of an `If-None-Match` field. The field is cut at every comma, also inside a listed
opaque-tag, and a piece is compared with or without quotes around it. A comparison goes wrong exactly
on a tag that holds the asked one bare, between two of its own commas.
-/
import BareServer.Serve.CacheSpec
import BareServer.Serve.Values

namespace BareServer

open BareServer.Lib

/-! ## The field -/

/-- A byte of an opaque-tag: a visible one other than the quote, or one outside ASCII. -/
def isEtagc (b : UInt8) : Bool := b == 0x21 || (0x23 ≤ b && b ≤ 0x7E) || 0x80 ≤ b

/-- An entity-tag, weak or strong. -/
structure EntityTag where
  weak : Bool
  chars : Str
  etagc : ∀ b ∈ chars, isEtagc b = true

def EntityTag.mark (t : EntityTag) : Str := if t.weak then str "W/" else []

def EntityTag.text (t : EntityTag) : Str := t.mark ++ 34 :: (t.chars ++ [34])

/-- An element of a list field: an entity-tag or nothing, between optional blanks. -/
structure TagItem where
  before : Str
  tag : Option EntityTag
  after : Str
  blanks : ∀ b ∈ before ++ after, isBlank b = true

def TagItem.text (i : TagItem) : Str := i.before ++ (i.tag.map EntityTag.text).getD [] ++ i.after

/-- A well-formed `If-None-Match` field: the asterisk, or a list of entity-tags. -/
inductive TagField where
  | any
  | list (items : List TagItem)

def TagField.text : TagField → Str
  | .any => str "*"
  | .list items => (str ",").intercalate (items.map TagItem.text)

/-- The entity-tags a field lists. -/
def TagField.tags : TagField → List EntityTag
  | .any => []
  | .list items => items.filterMap TagItem.tag

/-- The field covers an opaque-tag: it is the asterisk, or it lists the tag, weak or strong. -/
def TagField.Covers (f : TagField) (etag : Str) : Prop := f = .any ∨ ∃ t ∈ f.tags, t.chars = etag

/-- A text without the white space around it and without a weak mark. -/
def bare (p : Str) : Str := ((str "W/").isPrefixOf? (trim p)).getD (trim p)

/-- The opaque-tag holds another one bare, between two of its commas. -/
def EntityTag.Hides (t : EntityTag) (etag : Str) : Prop :=
  ∃ a p b, t.chars = a ++ 44 :: (p ++ 44 :: b) ∧ bare p = etag

def TagField.Hides (f : TagField) (etag : Str) : Prop := ∃ t ∈ f.tags, t.Hides etag

/-! ## One piece -/

theorem bare_cases (p : Str) : bare p = trim p ∨ trim p = str "W/" ++ bare p := by
  unfold bare
  cases h : (str "W/").isPrefixOf? (trim p) with
  | none => exact .inl rfl
  | some r => exact .inr (List.isPrefixOf?_eq_some_iff_append_eq.1 h).symm

theorem opaqueTag_eq (t : Str) :
    opaqueTag t = (((str "\"").isPrefixOf? (bare t)).bind ((str "\"").isSuffixOf? ·)).getD (bare t) := rfl

/-- Taking off white space and a weak mark drops no other byte. -/
theorem count_bare {c : UInt8} (hc : isGraph c = true) (hm : c ∉ str "W/") (p : Str) : (bare p).count c = p.count c := by
  rw [← count_trim hc p]
  rcases bare_cases p with h | h
  · rw [h]
  · rw [h, List.count_append, List.count_eq_zero.2 hm, Nat.zero_add]

/-- The quotes are taken off in pairs. -/
theorem count_opaqueTag (t : Str) :
    t.count 34 = (opaqueTag t).count 34 ∨ t.count 34 = (opaqueTag t).count 34 + 2 := by
  rw [opaqueTag_eq, ← count_bare (c := 34) (by decide) (by decide) t]
  cases hp : (str "\"").isPrefixOf? (bare t) with
  | none => exact .inl rfl
  | some r =>
    cases hs : (str "\"").isSuffixOf? r with
    | none =>
      refine .inl ?_
      rw [Option.bind_some, hs]
      rfl
    | some m =>
      have hr := List.isSuffixOf?_eq_some_iff_append_eq.1 hs
      have ht := List.isPrefixOf?_eq_some_iff_append_eq.1 hp
      refine .inr ?_
      rw [Option.bind_some, hs, Option.getD_some, ← ht, ← hr, List.count_append, List.count_append]
      show 1 + (m.count 34 + 1) = m.count 34 + 2
      omega

/-- A piece with one quote is no opaque-tag without quotes. -/
theorem opaqueTag_ne_of_count {t etag : Str} (h : t.count 34 = 1) (hq : 34 ∉ etag) : opaqueTag t ≠ etag := by
  intro he
  have hcount := count_opaqueTag t
  rw [he, List.count_eq_zero.2 hq, h] at hcount
  omega

/-- A piece without a quote is compared bare. -/
theorem opaqueTag_of_not_mem {p : Str} (h : 34 ∉ p) : opaqueTag p = bare p := by
  have hb : 34 ∉ bare p := by
    rw [← List.count_eq_zero, count_bare (by decide) (by decide)]
    exact List.count_eq_zero.2 h
  have hp : (str "\"").isPrefixOf? (bare p) = none := by
    cases hp : (str "\"").isPrefixOf? (bare p) with
    | none => rfl
    | some r =>
      have hr := List.isPrefixOf?_eq_some_iff_append_eq.1 hp
      exact absurd (by rw [← hr]; exact List.mem_cons_self) hb
  rw [opaqueTag_eq, hp]
  rfl

theorem trim_text (t : EntityTag) : trim t.text = t.text := by
  have hlast : t.text.getLast? = some 34 := by
    rw [EntityTag.text, ← List.cons_append, ← List.append_assoc, List.getLast?_append_of_ne_nil _ (by simp)]
    rfl
  cases hw : t.weak with
  | false =>
    have htext : t.text = 34 :: (t.chars ++ [34]) := by rw [EntityTag.text, EntityTag.mark, hw]; rfl
    exact trim_between (by decide) (by decide) htext hlast
  | true =>
    have htext : t.text = 87 :: 47 :: 34 :: (t.chars ++ [34]) := by rw [EntityTag.text, EntityTag.mark, hw]; rfl
    exact trim_between (by decide) (by decide) htext hlast

/-- A listed tag in one piece is compared by its opaque-tag. -/
theorem opaqueTag_text {u w : Str} (hu : Spaces u) (hw : Spaces w) (t : EntityTag) :
    opaqueTag (u ++ t.text ++ w) = t.chars := by
  have htrim : trim (u ++ t.text ++ w) = t.text := by rw [trim_append_right hw, trim_append_left hu, trim_text]
  have hbare : bare (u ++ t.text ++ w) = 34 :: (t.chars ++ [34]) := by
    rw [bare, htrim, EntityTag.text, EntityTag.mark]
    cases t.weak <;> rfl
  have hp : (str "\"").isPrefixOf? (34 :: (t.chars ++ [34])) = some (t.chars ++ [34]) :=
    List.isPrefixOf?_eq_some_iff_append_eq.2 rfl
  have hs : (str "\"").isSuffixOf? (t.chars ++ [34]) = some t.chars := List.isSuffixOf?_eq_some_iff_append_eq.2 rfl
  rw [opaqueTag_eq, hbare, hp, Option.bind_some, hs]
  rfl

/-- A field matches by the asterisk or by one of its pieces. -/
theorem inmMatches_iff (field etag : Str) :
    inmMatches field etag = true ↔ trim field = str "*" ∨ ∃ p ∈ field.splitOn 44, opaqueTag p = etag := by
  have htrim : ∀ p, opaqueTag (trim p) = opaqueTag p := fun p => by rw [opaqueTag_eq, opaqueTag_eq, bare, bare, trim_trim]
  have hpieces : ((trim field).splitOn 44).map opaqueTag = (field.splitOn 44).map opaqueTag := by
    have hmap : ∀ ls : List Str, ls.map opaqueTag = (ls.map trim).map opaqueTag := fun ls => by
      rw [List.map_map]
      exact List.map_congr_left fun p _ => (htrim p).symm
    rw [hmap, splitOn_trim (by decide), ← hmap]
  by_cases hstar : trim field = str "*"
  · simp [inmMatches, hstar]
  · have hany : inmMatches field etag = ((trim field).splitOn 44).any fun t => opaqueTag t == etag :=
      if_neg (by simpa using hstar)
    have hmem : (∃ p ∈ (trim field).splitOn 44, opaqueTag p = etag) ↔ ∃ p ∈ field.splitOn 44, opaqueTag p = etag := by
      rw [← List.mem_map, hpieces, List.mem_map]
    simpa [hany, hstar] using hmem

/-! ## One element -/

theorem EntityTag.no_quote (t : EntityTag) : 34 ∉ t.chars := fun h => absurd (t.etagc 34 h) (by decide)

theorem EntityTag.mark_spec (t : EntityTag) : 34 ∉ t.mark ∧ 44 ∉ t.mark := by
  unfold EntityTag.mark
  split <;> decide

/-- What stands in front of an opaque-tag in its element, and what stands behind it: a quote, and no
comma. -/
structure Edge (e : Str) : Prop where
  comma : 44 ∉ e
  quote : e.count 34 = 1

theorem Edge.front {u : Str} (hu : Spaces u) (t : EntityTag) : Edge (u ++ t.mark ++ [34]) where
  comma := by simp [hu.not_mem (c := 44) (by decide), t.mark_spec.2]
  quote := by
    rw [List.count_append, List.count_append, List.count_eq_zero.2 (hu.not_mem (by decide)),
      List.count_eq_zero.2 t.mark_spec.1]
    rfl

theorem Edge.back {w : Str} (hw : Spaces w) : Edge (34 :: w) where
  comma := by simp [hw.not_mem (c := 44) (by decide)]
  quote := by rw [List.count_cons_self, List.count_eq_zero.2 (hw.not_mem (by decide))]

/-- A piece at an end of an opaque-tag keeps one quote. -/
theorem Edge.append_count {e x : Str} (h : Edge e) (hx : 34 ∉ x) : (e ++ x).count 34 = 1 ∧ (x ++ e).count 34 = 1 := by
  rw [List.count_append, List.count_append, h.quote, List.count_eq_zero.2 hx]
  exact ⟨rfl, rfl⟩

/-- What an asked opaque-tag has to be: some text without a quote or a comma. -/
structure Validator (etag : Str) : Prop where
  ne_nil : etag ≠ []
  quote : 34 ∉ etag
  comma : 44 ∉ etag

/-- A cut opaque-tag is found by one of the pieces of its element exactly when it hides the asked one. -/
theorem found_cut {l r etag : Str} (hl : Edge l) (hr : Edge r) (hv : Validator etag) (t : EntityTag) (hc : 44 ∈ t.chars) :
    (∃ p ∈ (l ++ t.chars ++ r).splitOn 44, opaqueTag p = etag) ↔ t.Hides etag := by
  constructor
  · rintro ⟨p, hp, he⟩
    obtain ⟨x, z, hx, hz, hcut⟩ := outer_cuts hc
    -- The pieces at the two ends keep one quote each.
    have hx34 : 34 ∉ x := fun hm => t.no_quote (by rcases hcut with h | ⟨y, h⟩ <;> simp [h, hm])
    have hz34 : 34 ∉ z := fun hm => t.no_quote (by rcases hcut with h | ⟨y, h⟩ <;> simp [h, hm])
    have hfirst : p ≠ l ++ x := fun h => opaqueTag_ne_of_count (h ▸ (hl.append_count hx34).1) hv.quote he
    have hlast : p ≠ z ++ r := fun h => opaqueTag_ne_of_count (h ▸ (hr.append_count hz34).2) hv.quote he
    have hlx : 44 ∉ l ++ x := by simp [hl.comma, hx]
    have hzr : 44 ∉ z ++ r := by simp [hr.comma, hz]
    rcases hcut with hcut | ⟨y, hcut⟩
    · rw [hcut, show l ++ (x ++ 44 :: z) ++ r = l ++ x ++ 44 :: (z ++ r) by simp,
        List.splitOn_append_cons_self_of_not_mem hlx, List.splitOn_eq_singleton hzr] at hp
      simp [hfirst, hlast] at hp
    · rw [hcut, show l ++ (x ++ 44 :: (y ++ 44 :: z)) ++ r = l ++ x ++ 44 :: (y ++ 44 :: (z ++ r)) by simp,
        List.splitOn_append_cons_self_of_not_mem hlx, List.splitOn_append_cons_self,
        List.splitOn_eq_singleton hzr] at hp
      have hy : p ∈ y.splitOn 44 := by simpa [hfirst, hlast] using hp
      obtain ⟨a, b, hab⟩ := between_of_mem_splitOn hy
      have hchars : t.chars = x ++ a ++ 44 :: (p ++ 44 :: (b ++ z)) := by
        rw [hcut, show x ++ 44 :: (y ++ 44 :: z) = x ++ 44 :: (y ++ [44]) ++ z by simp, hab]
        simp
      have hp34 : 34 ∉ p := fun hm => t.no_quote (by simp [hchars, hm])
      exact ⟨_, p, _, hchars, (opaqueTag_of_not_mem hp34).symm.trans he⟩
  · rintro ⟨a, p, b, ht, he⟩
    have hp34 : 34 ∉ p := fun hm => t.no_quote (by simp [ht, hm])
    have hp44 : 44 ∉ p := by
      rw [← List.count_eq_zero, ← count_bare (by decide) (by decide), he]
      exact List.count_eq_zero.2 hv.comma
    refine ⟨p, ?_, (opaqueTag_of_not_mem hp34).trans he⟩
    rw [ht, show l ++ (a ++ 44 :: (p ++ 44 :: b)) ++ r = l ++ a ++ 44 :: (p ++ 44 :: (b ++ r)) by simp,
      List.splitOn_append_cons_self, List.splitOn_append_cons_self_of_not_mem hp44]
    simp

/-- A listed tag is found by one of the pieces of its element exactly when it is the asked one or hides it. -/
theorem found_tag {u w etag : Str} (hu : Spaces u) (hw : Spaces w) (hv : Validator etag) (t : EntityTag) :
    (∃ p ∈ (u ++ t.text ++ w).splitOn 44, opaqueTag p = etag) ↔ t.chars = etag ∨ t.Hides etag := by
  have htext : u ++ t.text ++ w = u ++ t.mark ++ [34] ++ t.chars ++ 34 :: w := by
    rw [EntityTag.text]
    simp
  by_cases hc : 44 ∈ t.chars
  · have hne : t.chars ≠ etag := fun h => hv.comma (h ▸ hc)
    rw [htext, found_cut (.front hu t) (.back hw) hv t hc]
    simp [hne]
  · have hnot : ¬ t.Hides etag := fun ⟨a, p, b, ht, _⟩ => hc (by simp [ht])
    have hone : 44 ∉ u ++ t.text ++ w := by
      have hfront := (Edge.front hu t).comma
      have hback := (Edge.back hw).comma
      rw [htext]
      simp only [List.mem_append, not_or] at hfront ⊢
      exact ⟨⟨hfront, hc⟩, hback⟩
    have hfound : opaqueTag (u ++ t.text ++ w) = t.chars := opaqueTag_text hu hw t
    simp only [List.splitOn_eq_singleton hone, List.mem_singleton, exists_eq_left, hfound, hnot, or_false]

theorem TagItem.spaces (i : TagItem) : Spaces i.before ∧ Spaces i.after :=
  ⟨spaces_of_blanks fun b hb => i.blanks b (List.mem_append_left _ hb),
    spaces_of_blanks fun b hb => i.blanks b (List.mem_append_right _ hb)⟩

theorem TagItem.text_none {i : TagItem} (h : i.tag = none) : Spaces i.text := by
  rw [TagItem.text, h]
  exact (i.spaces.1.append .nil).append i.spaces.2

theorem TagItem.text_some {i : TagItem} {t : EntityTag} (h : i.tag = some t) :
    i.text = i.before ++ t.text ++ i.after := by
  rw [TagItem.text, h]
  rfl

/-- An element is found by one of its pieces exactly when it is a tag that is the asked one or hides it. -/
theorem found_item {etag : Str} (hv : Validator etag) (i : TagItem) :
    (∃ p ∈ i.text.splitOn 44, opaqueTag p = etag) ↔ ∃ t, i.tag = some t ∧ (t.chars = etag ∨ t.Hides etag) := by
  cases ht : i.tag with
  | some t =>
    rw [TagItem.text_some ht, found_tag i.spaces.1 i.spaces.2 hv]
    simp
  | none =>
    have hspace := TagItem.text_none ht
    have hempty : opaqueTag i.text = [] := by
      rw [opaqueTag_of_not_mem (hspace.not_mem (by decide)), bare, trim_spaces hspace]
      rfl
    rw [List.splitOn_eq_singleton (hspace.not_mem (by decide))]
    simp [hempty, Ne.symm hv.ne_nil]

/-! ## The whole field -/

/-- A list field is no asterisk. -/
theorem trim_list_ne (items : List TagItem) : trim (TagField.list items).text ≠ str "*" := by
  intro h
  obtain ⟨u, w, hu, hw, hsplit⟩ := trim_split (TagField.list items).text
  rw [h] at hsplit
  have hquote : 34 ∉ (TagField.list items).text := by
    rw [hsplit]
    simp only [List.mem_append, not_or]
    exact ⟨⟨hu.not_mem (by decide), by decide⟩, hw.not_mem (by decide)⟩
  have hstar : 42 ∈ (TagField.list items).text := by
    rw [hsplit]
    exact List.mem_append_left _ (List.mem_append_right _ (by decide))
  rw [TagField.text, show str "," = [44] by decide, mem_intercalate (by decide)] at hquote hstar
  obtain ⟨l, hl, hm⟩ := hstar
  obtain ⟨i, hi, rfl⟩ := List.mem_map.1 hl
  cases ht : i.tag with
  | none => exact (TagItem.text_none ht).not_mem (by decide) hm
  | some t => exact hquote ⟨_, hl, by rw [TagItem.text_some ht, EntityTag.text]; simp⟩

theorem etagFor_validator (body : Bytes) : Validator (etagFor body) := by
  have halnum : ∀ b ∈ etagFor body, isAlnum b = true ∨ b = 45 := by
    intro b hb
    rcases List.mem_append.1 hb with hb | hb
    · rcases List.mem_append.1 hb with hb | hb
      · exact .inl (isAlnum_of_mem_hex hb)
      · exact .inr (List.mem_singleton.1 hb)
    · exact .inl (isAlnum_of_mem_hex hb)
  have hnot : ∀ {b : UInt8}, isAlnum b = false → b ≠ 45 → b ∉ etagFor body := by
    intro b hb hdash hm
    rcases halnum b hm with h | h
    · rw [hb] at h
      cases h
    · exact hdash h
  refine ⟨fun h => ?_, hnot (by decide) (by decide), hnot (by decide) (by decide)⟩
  have hlen := congrArg List.length h
  simp only [etagFor, List.length_append, List.length_nil, show (str "-").length = 1 by decide] at hlen
  omega

/-- A field matches exactly when it covers the asked tag or one of its tags hides it. -/
theorem inmMatches_text {etag : Str} (hv : Validator etag) (f : TagField) :
    inmMatches f.text etag = true ↔ f.Covers etag ∨ f.Hides etag := by
  cases f with
  | any =>
    have hmatch : inmMatches (TagField.any).text etag = true := rfl
    simp [hmatch, TagField.Covers]
  | list items =>
    have hitems : (∃ p ∈ (TagField.list items).text.splitOn 44, opaqueTag p = etag) ↔
        ∃ i ∈ items, ∃ p ∈ i.text.splitOn 44, opaqueTag p = etag := by
      cases items with
      | nil => simp [TagField.text, show opaqueTag [] = [] from rfl, Ne.symm hv.ne_nil]
      | cons i items =>
        have hne : (i :: items).map TagItem.text ≠ [] := by simp
        simp only [TagField.text, show str "," = [44] by decide, mem_splitOn_intercalate hne, List.mem_map]
        grind
    rw [inmMatches_iff, or_iff_right (trim_list_ne items), hitems]
    simp only [found_item hv, TagField.Covers, TagField.Hides, TagField.tags, List.mem_filterMap]
    grind

/-- The comparison of a well-formed field with the tag of a body is right exactly when the field does
cover the tag or lists none that holds it bare between two of its own commas. -/
theorem inmMatches_right_iff (f : TagField) (body : Bytes) :
    (inmMatches f.text (etagFor body) = true ↔ f.Covers (etagFor body)) ↔
      (f.Covers (etagFor body) ∨ ¬ f.Hides (etagFor body)) := by
  rw [inmMatches_text (etagFor_validator body)]
  by_cases hc : f.Covers (etagFor body)
  · simp [hc]
  · simp [hc]

/-- A foreign tag with the asked one between two commas. -/
def foreignTag : EntityTag where
  weak := false
  chars := str "x,0-cbf29ce484222325,y"
  etagc := List.all_eq_true.1 (by decide)

/-- A field that lists one foreign tag matches the empty body. -/
theorem inmMatches_foreign :
    ¬ ∀ (f : TagField) (body : Bytes), inmMatches f.text (etagFor body) = true ↔ f.Covers (etagFor body) := by
  intro h
  have hmatch := (h (.list [⟨[], some foreignTag, [], by simp⟩]) []).1 (by decide +kernel)
  rcases hmatch with h | ⟨t, ht, he⟩
  · cases h
  · cases List.mem_singleton.1 ht
    exact absurd he (by decide +kernel)

end BareServer
