/-
What a strong validator (`cache.rs`, `etag_for`) tells apart: bodies of different lengths, and bodies that differ
in one byte, since a step of the hash loses neither the hash so far nor the byte. A coded variant is smaller
than its source, so it never carries the source's validator.
-/
import BareServer.Lib.OneOff
import BareServer.Cache.BuildSpec

namespace BareServer

open BareServer.Lib

/-! ## The hash -/

/-- The multiplier of a step has an inverse. -/
def fnvInverse : UInt64 := 0xce965057aff6957b

theorem fnvPrime_mul_inverse : (0x100000001b3 : UInt64) * fnvInverse = 1 := by decide

theorem fnvPrime_cancel {a b : UInt64} (h : a * 0x100000001b3 = b * 0x100000001b3) : a = b := by
  have hmul : a * 0x100000001b3 * fnvInverse = b * 0x100000001b3 * fnvInverse := congrArg (· * fnvInverse) h
  rwa [UInt64.mul_assoc, UInt64.mul_assoc, fnvPrime_mul_inverse, UInt64.mul_one, UInt64.mul_one] at hmul

theorem fnvStep_cancels : Cancels fnvStep where
  state x _ _ h := (UInt64.xor_left_inj x).1 (fnvPrime_cancel h)
  word h _ _ heq := (UInt64.xor_right_inj h).1 (fnvPrime_cancel heq)

theorem byteWord_injective : Function.Injective UInt8.toUInt64 := by
  intro x y h
  have := congrArg UInt64.toNat h
  rw [UInt8.toNat_toUInt64, UInt8.toNat_toUInt64] at this
  exact UInt8.toNat_inj.1 this

/-! ## Validators -/

theorem etagFor_parts {a b : Bytes} (h : etagFor a = etagFor b) :
    a.length = b.length ∧ (a.map UInt8.toUInt64).foldl fnvStep fnvBasis = (b.map UInt8.toUInt64).foldl fnvStep fnvBasis := by
  have hdash : ∀ n, ∀ b ∈ hex n, (b != 45) = true := by
    intro n b hb
    rw [bne_iff_ne]
    rintro rfl
    exact absurd (isAlnum_of_mem_hex hb) (by decide)
  -- the length is written up to the dash
  have hfront : ∀ n (t : Str), (hex n ++ str "-" ++ t).takeWhile (· != 45) = hex n := by
    intro n t
    rw [List.append_assoc, List.takeWhile_append_of_pos (hdash n)]
    exact List.append_nil _
  unfold etagFor at h
  have hlen := congrArg (List.takeWhile (· != 45)) h
  rw [hfront, hfront] at hlen
  rw [hlen, List.append_cancel_left_eq] at h
  rw [List.foldl_map, List.foldl_map]
  exact ⟨hex_injective hlen, UInt64.toNat_inj.1 (hex_injective h)⟩

/-- Bodies of different lengths, or that differ in exactly one byte, have different validators. -/
theorem etagFor_separates {a b : Bytes} (h : a.length ≠ b.length ∨ OneOff (· ≠ ·) a b) : etagFor a ≠ etagFor b := by
  intro heq
  obtain ⟨hlen, hhash⟩ := etagFor_parts heq
  rcases h with h | h
  · exact h hlen
  · have hwords : OneOff (· ≠ ·) (a.map UInt8.toUInt64) (b.map UInt8.toUInt64) :=
      h.map fun _ _ hne heq => hne (byteWord_injective heq)
    exact hwords.foldl_ne fnvStep_cancels fnvBasis hhash

/-! ## The variants of an entry -/

/-- The validators of an entry's variants: of the file as it is, gzip and brotli. -/
def Cached.etags : Cached → Str × Option Str × Option Str
  | .mem m => (m.identity.etag, m.gzip.map (·.etag), m.br.map (·.etag))
  | .disk d => (d.identity.etag, d.gzip.map (·.etag), d.br.map (·.etag))

theorem compressVariants_smaller {c : Compressors} {mime : Str} {data body : Bytes} {p : Policy}
    (h : (compressVariants c mime data p).1 = some body ∨ (compressVariants c mime data p).2 = some body) :
    body.length < data.length := by
  unfold compressVariants at h
  split at h
  · rcases h with h | h <;> cases h
  · rcases h with h | h
    · exact of_decide_eq_true (Option.filter_eq_some_iff.1 h).2
    · exact of_decide_eq_true (Option.filter_eq_some_iff.1 h).2

/-- The validators of an entry are those of its file's bytes and of their coded forms. -/
theorem entryFor_etags {env : BuildEnv} {p : Policy} {buildDir : Option Path} {url : Str} {data : Bytes} {e : Cached}
    (h : entryFor env p buildDir url data = some e) :
    e.etags = (etagFor data, (compressVariants env.compressors (mimeFor url) data p).1.map etagFor,
      (compressVariants env.compressors (mimeFor url) data p).2.map etagFor) := by
  rcases entryFor_cases h with rfl | ⟨bd, rfl⟩
  · simp only [Cached.etags, makeCached, buildVariant, Option.map_map]
    rfl
  · simp only [Cached.etags, diskEntry, diskVariant, Option.map_map]
    rfl

/-- Two bodies of different lengths, or that differ in exactly one byte, have different validators; hence in every
entry of every cache that is built, whatever the compressors, neither coded variant carries the validator of the
file as it is. -/
theorem etag_separation :
    (∀ a b : Bytes, a.length ≠ b.length ∨ OneOff (· ≠ ·) a b → etagFor a ≠ etagFor b) ∧
    ∀ (env : BuildEnv) (p : Policy) (seq total total' seq' : Nat) (root : Node) (cache : SiteCache),
      buildCache env p seq root total = (some (cache, total'), seq') → ∀ url e, cache.map.lookup url = some e →
        e.etags.2.1 ≠ some e.etags.1 ∧ e.etags.2.2 ≠ some e.etags.1 := by
  refine ⟨fun a b => etagFor_separates, ?_⟩
  intro env p seq total total' seq' root cache hb url e he
  obtain ⟨data, hentry⟩ := buildCache_entries hb he
  have hcoded : ∀ {body : Option Bytes}, (∀ b, body = some b → b.length < data.length) →
      body.map etagFor ≠ some (etagFor data) := by
    intro body hsmall heq
    obtain ⟨b, hb, htag⟩ := Option.map_eq_some_iff.1 heq
    exact etagFor_separates (.inl (Nat.ne_of_lt (hsmall b hb))) htag
  rw [entryFor_etags hentry]
  exact ⟨hcoded fun b hb => compressVariants_smaller (.inl hb), hcoded fun b hb => compressVariants_smaller (.inr hb)⟩

/-- A gzip that keeps the first bytes, and a brotli that does nothing. -/
def firstBytes : BuildEnv := ⟨⟨fun data _ => data.take 3, fun data _ => data⟩, fun _ => true, fun _ => true⟩

/-- The site defaults, with every text compressed. -/
def eagerPolicy : Policy := .withHeaders { Tuning.default with minCompressBytes := 1 } .default .memory []

/-- A last byte changed, and a script that is kept with a gzip variant. -/
theorem etag_separation_script : etagFor [97, 98, 99] ≠ etagFor [97, 98, 100] ∧
    ∃ built e, (buildCache firstBytes eagerPolicy 0 (.dir (some [(str "a.js", .file ⟨6, none⟩ (some (str "let a;")))])) 0).1 =
      some built ∧ built.1.map.lookup (str "/a.js") = some e ∧ e.etags.2.1.isSome = true ∧ e.etags.2.1 ≠ some e.etags.1 := by
  refine ⟨etag_separation.1 _ _ (.inr (.later 97 (.later 98 (.here [] (by decide))))), ?_⟩
  obtain ⟨built, hbuilt, hany⟩ := (Option.any_eq_true _ _).1 (show
    (buildCache firstBytes eagerPolicy 0 (.dir (some [(str "a.js", .file ⟨6, none⟩ (some (str "let a;")))])) 0).1.any
      (fun built => (built.1.map.lookup (str "/a.js")).any fun e => e.etags.2.1.isSome) = true by decide +kernel)
  obtain ⟨e, he, hgzip⟩ := (Option.any_eq_true _ _).1 hany
  exact ⟨built, e, hbuilt, he, hgzip, (etag_separation.2 _ _ 0 0 _ _ _ _ (pair_of_fst hbuilt) _ e he).1⟩

end BareServer
