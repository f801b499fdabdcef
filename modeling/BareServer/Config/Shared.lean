/-
The settings valid at both levels, as fields of the two records they live in: each has its key, its
parser and its place, and assigning one leaves the others alone.
-/
import BareServer.Config.RedirectSpec
import BareServer.Config.Settings

namespace BareServer

open BareServer.Lib

/-- The settings that `apply_shared` owns. -/
inductive Shared where
  | compression
  | brotliQuality
  | gzipLevel
  | minCompressBytes
  | maxBrotliBytes
  | maxGzipBytes
  | maxFileSize
  | cacheMaxAge
  | immutableMaxAge
  | hstsMaxAge
  | hstsIncludeSubdomains
  | hstsPreload
  | csp
  deriving DecidableEq

namespace Shared

def all : List Shared :=
  [compression, brotliQuality, gzipLevel, minCompressBytes, maxBrotliBytes, maxGzipBytes, maxFileSize, cacheMaxAge,
    immutableMaxAge, hstsMaxAge, hstsIncludeSubdomains, hstsPreload, csp]

def key : Shared → Str
  | compression => str "compression"
  | brotliQuality => str "brotli_quality"
  | gzipLevel => str "gzip_level"
  | minCompressBytes => str "min_compress_bytes"
  | maxBrotliBytes => str "max_brotli_bytes"
  | maxGzipBytes => str "max_gzip_bytes"
  | maxFileSize => str "max_file_size"
  | cacheMaxAge => str "cache_max_age"
  | immutableMaxAge => str "immutable_max_age"
  | hstsMaxAge => str "hsts_max_age"
  | hstsIncludeSubdomains => str "hsts_include_subdomains"
  | hstsPreload => str "hsts_preload"
  | csp => str "csp"

/-- The type of a setting's value. -/
abbrev Val : Shared → Type
  | compression | hstsIncludeSubdomains | hstsPreload => Bool
  | csp => Str
  | brotliQuality | gzipLevel | minCompressBytes | maxBrotliBytes | maxGzipBytes | maxFileSize | cacheMaxAge
  | immutableMaxAge | hstsMaxAge => Nat

/-- The value a text stands for. -/
def parse : (f : Shared) → Str → Except Str f.Val
  | compression, v => parseBool (str "compression") v
  | brotliQuality, v => parseRanged (str "brotli_quality") v 0 11
  | gzipLevel, v => parseRanged (str "gzip_level") v 0 9
  | minCompressBytes, v => parseSize (str "min_compress_bytes") v
  | maxBrotliBytes, v => parseSize (str "max_brotli_bytes") v
  | maxGzipBytes, v => parseSize (str "max_gzip_bytes") v
  | maxFileSize, v => parseSize (str "max_file_size") v
  | cacheMaxAge, v => parseSecs (str "cache_max_age") v
  | immutableMaxAge, v => parseSecs (str "immutable_max_age") v
  | hstsMaxAge, v => parseSecs (str "hsts_max_age") v
  | hstsIncludeSubdomains, v => parseBool (str "hsts_include_subdomains") v
  | hstsPreload, v => parseBool (str "hsts_preload") v
  | csp, v => parseHeaderValue (str "csp") v

/-- The two records the settings live in. -/
abbrev Records := Tuning × HeaderConfig

def get : (f : Shared) → Records → f.Val
  | compression, s => s.1.compression
  | brotliQuality, s => s.1.brotliQuality
  | gzipLevel, s => s.1.gzipLevel
  | minCompressBytes, s => s.1.minCompressBytes
  | maxBrotliBytes, s => s.1.maxBrotliBytes
  | maxGzipBytes, s => s.1.maxGzipBytes
  | maxFileSize, s => s.1.maxFileSize
  | cacheMaxAge, s => s.1.cacheMaxAge
  | immutableMaxAge, s => s.1.immutableMaxAge
  | hstsMaxAge, s => s.2.hstsMaxAge
  | hstsIncludeSubdomains, s => s.2.hstsIncludeSubdomains
  | hstsPreload, s => s.2.hstsPreload
  | csp, s => s.2.csp

def set : (f : Shared) → f.Val → Records → Records
  | compression, x, s => ({ s.1 with compression := x }, s.2)
  | brotliQuality, x, s => ({ s.1 with brotliQuality := x }, s.2)
  | gzipLevel, x, s => ({ s.1 with gzipLevel := x }, s.2)
  | minCompressBytes, x, s => ({ s.1 with minCompressBytes := x }, s.2)
  | maxBrotliBytes, x, s => ({ s.1 with maxBrotliBytes := x }, s.2)
  | maxGzipBytes, x, s => ({ s.1 with maxGzipBytes := x }, s.2)
  | maxFileSize, x, s => ({ s.1 with maxFileSize := x }, s.2)
  | cacheMaxAge, x, s => ({ s.1 with cacheMaxAge := x }, s.2)
  | immutableMaxAge, x, s => ({ s.1 with immutableMaxAge := x }, s.2)
  | hstsMaxAge, x, s => (s.1, { s.2 with hstsMaxAge := x })
  | hstsIncludeSubdomains, x, s => (s.1, { s.2 with hstsIncludeSubdomains := x })
  | hstsPreload, x, s => (s.1, { s.2 with hstsPreload := x })
  | csp, x, s => (s.1, { s.2 with csp := x })

/-! ## Laws -/

theorem mem_all (f : Shared) : f ∈ all := by cases f <;> decide

theorem key_injective : ∀ f ∈ all, ∀ g ∈ all, f.key = g.key → f = g := by decide +kernel

theorem get_set (f : Shared) (x : f.Val) (s : Records) : f.get (f.set x s) = x := by cases f <;> rfl

theorem get_set_other {f g : Shared} (h : f ≠ g) (x : g.Val) (s : Records) : f.get (g.set x s) = f.get s := by
  cases f <;> cases g <;> first | rfl | exact absurd rfl h

theorem set_comm {f g : Shared} (h : f ≠ g) (x : f.Val) (y : g.Val) (s : Records) :
    f.set x (g.set y s) = g.set y (f.set x s) := by
  cases f <;> cases g <;> first | rfl | exact absurd rfl h

/-- The budget is not among them. -/
theorem set_maxTotalBytes (f : Shared) (x : f.Val) (s : Records) :
    (f.set x s).1.maxTotalBytes = s.1.maxTotalBytes := by
  cases f <;> rfl

/-- The records hold these settings and the budget, and nothing else. -/
theorem records_ext {s s' : Records} (h : ∀ f : Shared, f.get s = f.get s')
    (hmax : s.1.maxTotalBytes = s'.1.maxTotalBytes) : s = s' := by
  obtain ⟨⟨c, bq, gl, mc, mb, mg, mf, mt, ca, im⟩, ⟨hm, hi, hp, cs⟩⟩ := s
  obtain ⟨⟨c', bq', gl', mc', mb', mg', mf', mt', ca', im'⟩, ⟨hm', hi', hp', cs'⟩⟩ := s'
  have h1 : c = c' := h .compression
  have h2 : bq = bq' := h .brotliQuality
  have h3 : gl = gl' := h .gzipLevel
  have h4 : mc = mc' := h .minCompressBytes
  have h5 : mb = mb' := h .maxBrotliBytes
  have h6 : mg = mg' := h .maxGzipBytes
  have h7 : mf = mf' := h .maxFileSize
  have h8 : ca = ca' := h .cacheMaxAge
  have h9 : im = im' := h .immutableMaxAge
  have h10 : hm = hm' := h .hstsMaxAge
  have h11 : hi = hi' := h .hstsIncludeSubdomains
  have h12 : hp = hp' := h .hstsPreload
  have h13 : cs = cs' := h .csp
  have h14 : mt = mt' := hmax
  subst h1 h2 h3 h4 h5 h6 h7 h8 h9 h10 h11 h12 h13 h14
  rfl

/-! ## Keys -/

/-- The setting of a key. -/
def ofKey (k : Str) : Option Shared := all.find? fun f => k == f.key

theorem ofKey_key (f : Shared) : ofKey f.key = some f := by cases f <;> decide

theorem ofKey_some {k : Str} {f : Shared} (h : ofKey k = some f) : k = f.key := by
  simpa using List.find?_some h

/-- `apply_shared` parses a value by its key and puts it in its place. -/
theorem applyShared_eq (t : Tuning) (h : HeaderConfig) (k v : Str) : applyShared t h k v =
    match ofKey k with
    | none => .ok none
    | some f => (f.parse v).map fun x => some (f.set x (t, h)) := by
  cases hf : ofKey k with
  | some f =>
    have hk := ofKey_some hf
    subst hk
    cases f <;> rfl
  | none =>
    have hne : ∀ f : Shared, k ≠ f.key := fun f he => by
      rw [he, ofKey_key] at hf
      cases hf
    unfold applyShared
    rw [if_neg, if_neg, if_neg, if_neg, if_neg, if_neg, if_neg, if_neg, if_neg, if_neg, if_neg, if_neg, if_neg]
    all_goals rw [beq_iff_eq]
    exacts [hne csp, hne hstsPreload, hne hstsIncludeSubdomains, hne hstsMaxAge, hne immutableMaxAge, hne cacheMaxAge,
      hne maxFileSize, hne maxGzipBytes, hne maxBrotliBytes, hne minCompressBytes, hne gzipLevel, hne brotliQuality,
      hne compression]

/-- An accepted assignment gives its key's setting the value it stands for. -/
theorem applyShared_ok {t : Tuning} {h : HeaderConfig} {k v : Str} {s : Records}
    (ha : applyShared t h k v = .ok (some s)) : ∃ f x, ofKey k = some f ∧ f.parse v = .ok x ∧ s = f.set x (t, h) := by
  rw [applyShared_eq] at ha
  cases hf : ofKey k with
  | none => rw [hf] at ha; cases ha
  | some f =>
    rw [hf] at ha
    simp only at ha
    cases hx : f.parse v with
    | error e => rw [hx] at ha; cases ha
    | ok x =>
      rw [hx] at ha
      cases ha
      exact ⟨f, x, rfl, hx, rfl⟩

end Shared
end BareServer
