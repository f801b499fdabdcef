/-
What the URL helpers give. Decoding an encoded path gives the path back, and an encoded path is made
of bytes that a request line and a header line carry as they are; a path that resolves gets the first
entry among its candidates.
-/
import BareServer.Serve.Text

namespace BareServer

open BareServer.Lib

/-! ## Nibbles -/

/-- A hexadecimal digit is alphanumeric and reads back as its value. -/
theorem hexDigit_spec {n : UInt8} (h : n.toNat < 16) : isAlnum (hexDigit n) = true ∧ hexval (hexDigit n) = some n :=
  forall_nibble (P := fun n => isAlnum (hexDigit n) = true ∧ hexval (hexDigit n) = some n) (by decide) h

theorem toNat_high (b : UInt8) : (b >>> 4).toNat = b.toNat / 16 := by
  rw [UInt8.toNat_shiftRight]
  exact Nat.shiftRight_eq_div_pow _ 4

theorem toNat_low (b : UInt8) : (b &&& 0x0f).toNat = b.toNat % 16 := by
  rw [UInt8.toNat_and]
  exact Nat.and_two_pow_sub_one_eq_mod _ 4

theorem high_lt (b : UInt8) : (b >>> 4).toNat < 16 := by
  have := b.toNat_lt
  rw [toNat_high]
  omega

theorem low_lt (b : UInt8) : (b &&& 0x0f).toNat < 16 := by
  rw [toNat_low]
  omega

/-- A byte is its two nibbles. -/
theorem nibbles (b : UInt8) : (b >>> 4) <<< 4 ||| (b &&& 0x0f) = b := by
  have hb := b.toNat_lt
  rw [← UInt8.toNat_inj, UInt8.toNat_or, UInt8.toNat_shiftLeft, toNat_high, toNat_low]
  have hshift : (b.toNat / 16) <<< ((4 : UInt8).toNat % 8) % 2 ^ 8 = 2 ^ 4 * (b.toNat / 16) := by
    show (b.toNat / 16) <<< 4 % 2 ^ 8 = _
    rw [Nat.shiftLeft_eq]
    omega
  rw [hshift, ← Nat.two_pow_add_eq_or_of_lt (show b.toNat % 16 < 2 ^ 4 by omega)]
  omega

/-! ## Encoded text -/

/-- The bytes of an encoded path: unescaped ones and the escape sign. -/
def isEncoded (b : UInt8) : Bool := isBare b || b == 37

theorem isBare_of_isAlnum {b : UInt8} (h : isAlnum b = true) : isBare b = true := by rw [isBare, h, Bool.true_or]

theorem mem_encodeByte {b c : UInt8} (h : c ∈ encodeByte b) : isEncoded c = true := by
  unfold encodeByte at h
  split at h
  · rename_i hb
    rw [List.mem_singleton.1 h, isEncoded, hb, Bool.true_or]
  · simp only [List.mem_cons, List.not_mem_nil, or_false] at h
    rcases h with rfl | rfl | rfl
    · rfl
    · rw [isEncoded, isBare_of_isAlnum (hexDigit_spec (high_lt b)).1, Bool.true_or]
    · rw [isEncoded, isBare_of_isAlnum (hexDigit_spec (low_lt b)).1, Bool.true_or]

theorem mem_percentEncodePath {s : Str} {c : UInt8} (h : c ∈ percentEncodePath s) : isEncoded c = true := by
  obtain ⟨b, -, hb⟩ := List.mem_flatMap.1 h
  exact mem_encodeByte hb

/-- The punctuation of a path: neither control bytes nor a space, a percent sign or a question mark,
and all of it ASCII. -/
theorem isEncoded_punctuation :
    ((37 :: str "-._~/!$&'()*+,;=:@").all fun c => !isControl c && c != 32 && c != 63 && decide (c < 0x80)) = true := by
  decide

theorem isEncoded_spec {c : UInt8} (h : isEncoded c = true) : isControl c = false ∧ c ≠ 32 ∧ c ≠ 63 ∧ c < 0x80 := by
  simp only [isEncoded, isBare, Bool.or_eq_true, beq_iff_eq] at h
  have hpunct : ∀ c ∈ 37 :: str "-._~/!$&'()*+,;=:@", isControl c = false ∧ c ≠ 32 ∧ c ≠ 63 ∧ c < 0x80 := by
    intro c hc
    simpa [and_assoc] using List.all_eq_true.1 isEncoded_punctuation c hc
  rcases h with (h | h) | rfl
  · refine ⟨isControl_of_isAlnum h, ?_, ?_, ?_⟩
    · rintro rfl; exact absurd h (by decide)
    · rintro rfl; exact absurd h (by decide)
    · rw [isAlnum_iff] at h
      rw [UInt8.lt_iff_toNat_lt]
      simp only [UInt8.reduceToNat]
      omega
  · exact hpunct c (List.mem_cons_of_mem _ (List.contains_iff_mem.1 h))
  · exact hpunct 37 List.mem_cons_self

theorem clean_percentEncodePath (s : Str) : Clean (percentEncodePath s) := fun _ h =>
  (isEncoded_spec (mem_percentEncodePath h)).1

/-! ## What decodes -/

theorem clean_of_hexval {c x : UInt8} (h : hexval c = some x) : isControl c = false := by
  by_contra hc
  rw [Bool.not_eq_false] at hc
  unfold hexval at h
  simp only [isControl, Bool.or_eq_true, decide_eq_true_eq, beq_iff_eq] at hc
  rcases hc with hc | rfl
  · have := UInt8.lt_iff_toNat_lt.1 hc
    simp only [Bool.and_eq_true, decide_eq_true_eq, UInt8.le_iff_toNat_le, UInt8.reduceToNat] at h this
    rw [if_neg (by omega), if_neg (by omega), if_neg (by omega)] at h
    cases h
  · cases h

/-- Text that decodes has no control byte, and decodes to none. -/
theorem clean_of_percentDecode {s d : Str} (h : percentDecode s = some d) : Clean s ∧ Clean d := by
  induction s using percentDecode.induct generalizing d with
  | case1 =>
    cases h
    exact ⟨clean_nil, clean_nil⟩
  | case2 hi lo s a b hlo hhi hcontrol => simp [percentDecode, hhi, hlo, hcontrol] at h
  | case3 hi lo s a b hlo hhi hcontrol ih =>
    simp only [percentDecode, hhi, hlo, hcontrol] at h
    obtain ⟨d', hd', rfl⟩ := Option.map_eq_some_iff.1 h
    obtain ⟨hs, hd⟩ := ih hd'
    exact ⟨clean_cons.2 ⟨by decide, clean_cons.2 ⟨clean_of_hexval hhi, clean_cons.2 ⟨clean_of_hexval hlo, hs⟩⟩⟩,
      clean_cons.2 ⟨Bool.not_eq_true _ ▸ hcontrol, hd⟩⟩
  | case4 hi lo s hbad =>
    rw [percentDecode] at h
    split at h
    · rename_i a b hhi hlo
      exact absurd hlo (hbad a b hhi)
    · cases h
  | case5 c s hshort hbad =>
    rw [percentDecode.eq_3 _ _ hshort, if_pos hbad] at h
    cases h
  | case6 c s hshort hbad ih =>
    rw [percentDecode.eq_3 _ _ hshort, if_neg hbad] at h
    obtain ⟨d', hd', rfl⟩ := Option.map_eq_some_iff.1 h
    simp only [Bool.or_eq_true, not_or, Bool.not_eq_true] at hbad
    obtain ⟨hs, hd⟩ := ih hd'
    exact ⟨clean_cons.2 ⟨hbad.2, hs⟩, clean_cons.2 ⟨hbad.2, hd⟩⟩

/-! ## The round trip -/

theorem isBare_ne_percent {b : UInt8} (h : isBare b = true) : b ≠ 37 := by
  rintro rfl
  exact absurd h (by decide)

/-- An encoded byte that is no control byte decodes to itself. -/
theorem percentDecode_encodeByte {b : UInt8} (hb : isControl b = false) (t : Str) :
    percentDecode (encodeByte b ++ t) = (percentDecode t).map (b :: ·) := by
  unfold encodeByte
  split
  · rename_i hbare
    have hne := isBare_ne_percent hbare
    rw [List.singleton_append, percentDecode]
    · simp [hne, hb]
    · exact fun _ _ _ he _ => hne he
  · have hhi := (hexDigit_spec (high_lt b)).2
    have hlo := (hexDigit_spec (low_lt b)).2
    rw [List.cons_append, List.cons_append, List.cons_append, List.nil_append, percentDecode, hhi, hlo]
    simp only [nibbles, hb, Bool.false_eq_true, if_false]

/-- Decoding an encoded path gives the path back. -/
theorem percentDecode_percentEncodePath : ∀ {s : Str}, Clean s → percentDecode (percentEncodePath s) = some s
  | [], _ => rfl
  | b :: s, h => by
    obtain ⟨hb, hs⟩ := clean_cons.1 h
    rw [percentEncodePath, List.flatMap_cons, percentDecode_encodeByte hb]
    show (percentDecode (percentEncodePath s)).map _ = _
    rw [percentDecode_percentEncodePath hs]
    rfl

/-! ## Resolution -/

/-- The path without its trailing slashes. -/
def trimSlashes (d : Str) : Str := (d.reverse.dropWhile (· == 47)).reverse

/-- The keys a decoded path may be served from, in the order they are tried. -/
def candidates (d : Str) : List Str :=
  if (str "/").isSuffixOf d then [d ++ str "index.html", trimSlashes d ++ str ".html"] else [d, d ++ str ".html"]

/-- A path served from the cache gets the first of its candidates that is there. -/
theorem resolve_entry {cache : Cache} {d : Str} {e : Cached} (h : resolve cache d = some (.entry e)) :
    (candidates d).findSome? cache.lookup = some e := by
  unfold resolve at h
  unfold candidates
  split at h
  · rename_i hslash
    rw [if_pos hslash]
    cases hi : cache.lookup (d ++ str "index.html") with
    | some e' =>
      rw [hi] at h
      cases h
      simp [List.findSome?, hi]
    | none =>
      rw [hi] at h
      simp only at h
      split at h
      · cases h
      · obtain ⟨e', he', he⟩ := Option.map_eq_some_iff.1 h
        cases he
        simp [List.findSome?, hi, trimSlashes, he']
  · rename_i hslash
    rw [if_neg hslash]
    cases hd : cache.lookup d with
    | some e' =>
      rw [hd] at h
      cases h
      simp [List.findSome?, hd]
    | none =>
      rw [hd] at h
      simp only at h
      cases hh : cache.lookup (d ++ str ".html") with
      | some e' =>
        rw [hh] at h
        cases h
        simp [List.findSome?, hd, hh]
      | none =>
        rw [hh] at h
        simp at h

/-- A key that is there is served under its own path. -/
theorem resolve_self {cache : Cache} {d : Str} {e : Cached} (hd : cache.lookup d = some e)
    (hslash : (str "/").isSuffixOf d = false) : resolve cache d = some (.entry e) := by
  rw [resolve, hslash, if_neg Bool.false_ne_true, hd]

/-- What a path resolves to in two caches whose entries are related. -/
inductive ResolvedRel (R : Cached → Cached → Prop) : Resolved → Resolved → Prop where
  | entry {e e' : Cached} (h : R e e') : ResolvedRel R (.entry e) (.entry e')
  | dirIndex : ResolvedRel R .dirIndex .dirIndex

/-- Related caches resolve every path alike. -/
theorem resolve_rel {R : Cached → Cached → Prop} {a b : Cache}
    (h : ∀ url, Option.Rel R (a.lookup url) (b.lookup url)) (d : Str) :
    Option.Rel (ResolvedRel R) (resolve a d) (resolve b d) := by
  have hentry : ∀ x y, Option.Rel R x y → Option.Rel (ResolvedRel R) (x.map .entry) (y.map .entry) := by
    rintro _ _ (hr | -)
    · exact .some (.entry hr)
    · exact .none
  unfold resolve
  split
  · have hindex := h (d ++ str "index.html")
    generalize a.lookup (d ++ str "index.html") = x at hindex ⊢
    generalize b.lookup (d ++ str "index.html") = y at hindex ⊢
    cases hindex with
    | some hr => exact .some (.entry hr)
    | none =>
      simp only
      split
      · exact .none
      · exact hentry _ _ (h _)
  · have hself := h d
    have hhtml := h (d ++ str ".html")
    have hdir := h (d ++ str "/index.html")
    generalize a.lookup d = x at hself ⊢
    generalize b.lookup d = y at hself ⊢
    generalize a.lookup (d ++ str ".html") = x at hhtml ⊢
    generalize b.lookup (d ++ str ".html") = y at hhtml ⊢
    generalize a.lookup (d ++ str "/index.html") = x at hdir ⊢
    generalize b.lookup (d ++ str "/index.html") = y at hdir ⊢
    cases hself with
    | some hr => exact .some (.entry hr)
    | none =>
      cases hhtml with
      | some hr => exact .some (.entry hr)
      | none =>
        cases hdir with
        | some hr => exact .some .dirIndex
        | none => exact .none

end BareServer
