/-
Top-level assignments: each is accepted for its key and its value alone, sets one thing, and can be
exchanged with one of another key.
-/
import BareServer.Config.Parse
import BareServer.Config.Shared

namespace BareServer

open BareServer.Lib

/-- What an accepted top-level assignment sets. -/
inductive TopSet where
  | listen (host port : Str)
  | listenHttp (host port : Str)
  | maxTotalBytes (n : Nat)
  | maxConnsPerIp (n : Nat)
  | maxResponseSecs (n : Nat)
  | storage (s : Storage)
  | diskCache (dir : Str)
  | shared (f : Shared) (x : f.Val)

namespace TopSet

def key : TopSet → Str
  | listen _ _ => str "listen"
  | listenHttp _ _ => str "listen_http"
  | maxTotalBytes _ => str "max_total_bytes"
  | maxConnsPerIp _ => str "max_conns_per_ip"
  | maxResponseSecs _ => str "max_response_secs"
  | storage _ => str "storage"
  | diskCache _ => str "disk_cache"
  | shared f _ => f.key

def apply : TopSet → ParseState → ParseState
  | listen h p, st => { st with host := h, port := p }
  | listenHttp h p, st => { st with httpHost := h, httpPort := p }
  | maxTotalBytes n, st => { st with tuning := { st.tuning with maxTotalBytes := n } }
  | maxConnsPerIp n, st => { st with maxConnsPerIp := n }
  | maxResponseSecs n, st => { st with maxResponseSecs := n }
  | storage s, st => { st with storage := s }
  | diskCache dir, st => { st with diskCache := some dir }
  | shared f x, st =>
    let s := f.set x (st.tuning, st.headers)
    { st with tuning := s.1, headers := s.2 }

/-- The storage a text names. -/
def storageOf (v : Str) : Option Storage :=
  let w := lower (trim v)
  if [str "memory", str "mem", str "ram"].contains w then some .memory
  else if w == str "disk" then some .disk
  else none

/-- What an assignment sets, by its key. -/
def ofLine (k v : Str) : Option TopSet :=
  if k == str "listen" then (parseListen 0 k (str "[::]:443") v).toOption.map fun hp => listen hp.1 hp.2
  else if k == str "listen_http" then (parseListen 0 k (str "[::]:80") v).toOption.map fun hp => listenHttp hp.1 hp.2
  else if k == str "max_total_bytes" then (parseSize k v).toOption.map maxTotalBytes
  else if k == str "max_conns_per_ip" then (parseCount k v).toOption.map maxConnsPerIp
  else if k == str "max_response_secs" then (parseDeadlineSecs k v).toOption.map maxResponseSecs
  else if k == str "storage" then (storageOf v).map storage
  else if k == str "disk_cache" then some (diskCache (trim v))
  else (Shared.ofKey k).bind fun f => (f.parse v).toOption.map (shared f)

theorem ofLine_key {k v : Str} {e : TopSet} (h : ofLine k v = some e) : e.key = k := by
  unfold ofLine at h
  simp only [beq_iff_eq] at h
  repeat' split at h
  case isFalse =>
    obtain ⟨f, hf, h⟩ := Option.bind_eq_some_iff.1 h
    obtain ⟨x, -, rfl⟩ := Option.map_eq_some_iff.1 h
    exact (Shared.ofKey_some hf).symm
  all_goals first
    | (obtain ⟨x, -, rfl⟩ := Option.map_eq_some_iff.1 h; rename_i hk; exact hk.symm)
    | (cases h; rename_i hk; exact hk.symm)

theorem toOption_eq_some {ε α : Type} {x : Except ε α} {a : α} : x.toOption = some a ↔ x = .ok a := by
  cases x <;> simp [Except.toOption]

theorem map_ok_iff {ε α β : Type} {x : Except ε α} {f : α → β} {b : β} :
    x.map f = .ok b ↔ ∃ a, x.toOption = some a ∧ b = f a := by
  cases x <;> simp [Except.map, Except.toOption, eq_comm]

theorem mapError_toOption {ε ε' α : Type} (x : Except ε α) (f : ε → ε') : (x.mapError f).toOption = x.toOption := by
  cases x <;> rfl

theorem parseListen_toOption (n : Nat) (key eg v : Str) :
    (parseListen n key eg v).toOption = (parseListen 0 key eg v).toOption := by
  unfold parseListen
  cases rsplitOnce v 58 with
  | none => rfl
  | some hp =>
    simp only
    split <;> rfl

/-- A top-level assignment is accepted for its key and its value, and sets one thing. -/
theorem serverSetting_ok {st st' : ParseState} {n : Nat} {k v : Str} :
    serverSetting st n k v = .ok st' ↔ ∃ e, ofLine k v = some e ∧ st' = e.apply st := by
  unfold serverSetting ofLine
  split
  · rw [map_ok_iff, parseListen_toOption]
    simp [apply]
  split
  · rw [map_ok_iff, parseListen_toOption]
    simp [apply]
  split
  · rw [map_ok_iff, mapError_toOption]
    simp [apply]
  split
  · rw [map_ok_iff, mapError_toOption]
    simp [apply]
  split
  · rw [map_ok_iff, mapError_toOption]
    simp [apply]
  split
  · simp only [storageOf]
    split
    · simp [apply, eq_comm]
    · split
      · simp [apply, eq_comm]
      · simp
  split
  · simp [apply, eq_comm]
  · rw [Shared.applyShared_eq]
    cases Shared.ofKey k with
    | none =>
      simp only [Option.bind_none, reduceCtorEq, false_and]
      split <;> simp
    | some f =>
      simp only [Option.bind_some]
      cases f.parse v with
      | error e => simp [Except.map, Except.toOption]
      | ok x => simp [Except.map, Except.toOption, apply, eq_comm]

/-- Two assignments of different keys can be exchanged. -/
theorem apply_comm {a b : TopSet} (h : a.key ≠ b.key) (st : ParseState) :
    a.apply (b.apply st) = b.apply (a.apply st) := by
  cases a with
  | shared f x =>
    cases b with
    | shared g y =>
      have hfg : f ≠ g := fun he => h (congrArg Shared.key he)
      simp [apply, Shared.set_comm hfg]
    | maxTotalBytes n => cases f <;> rfl
    | _ => rfl
  | maxTotalBytes n =>
    cases b with
    | shared g y => cases g <;> rfl
    | maxTotalBytes m => exact absurd rfl h
    | _ => rfl
  | _ => cases b <;> first | rfl | exact absurd rfl h

/-- The keys of the top level alone are no shared settings. -/
theorem topKeys_ne : ∀ f ∈ Shared.all, str "listen" ≠ f.key ∧ str "listen_http" ≠ f.key ∧
    str "max_total_bytes" ≠ f.key ∧ str "max_conns_per_ip" ≠ f.key ∧ str "max_response_secs" ≠ f.key ∧
    str "storage" ≠ f.key ∧ str "disk_cache" ≠ f.key := by decide +kernel

/-- What an assignment sets is what it was given. -/
theorem ofLine_shared {k v : Str} {f : Shared} {x : f.Val} (h : ofLine k v = some (shared f x)) :
    f.parse v = .ok x := by
  unfold ofLine at h
  repeat' split at h
  case isFalse =>
    obtain ⟨g, hg, h⟩ := Option.bind_eq_some_iff.1 h
    obtain ⟨y, hy, h⟩ := Option.map_eq_some_iff.1 h
    cases h
    exact toOption_eq_some.1 hy
  all_goals first
    | cases h
    | (obtain ⟨x, -, h⟩ := Option.map_eq_some_iff.1 h; cases h)

/-- A setting that is given a value at the top level can take it. -/
theorem ofLine_parse {k v : Str} {e : TopSet} (h : ofLine k v = some e) {f : Shared} (hk : k = f.key) :
    ∃ x, f.parse v = .ok x := by
  have hkey := (ofLine_key h).trans hk
  obtain ⟨h1, h2, h3, h4, h5, h6, h7⟩ := topKeys_ne f (Shared.mem_all f)
  cases e with
  | shared g x =>
    have hg := Shared.key_injective g (Shared.mem_all g) f (Shared.mem_all f) hkey
    subst hg
    exact ⟨x, ofLine_shared h⟩
  | listen => exact absurd hkey h1
  | listenHttp => exact absurd hkey h2
  | maxTotalBytes => exact absurd hkey h3
  | maxConnsPerIp => exact absurd hkey h4
  | maxResponseSecs => exact absurd hkey h5
  | storage => exact absurd hkey h6
  | diskCache => exact absurd hkey h7

theorem ofLine_maxTotalBytes {k v : Str} {n : Nat} (h : ofLine k v = some (maxTotalBytes n)) :
    parseSize (str "max_total_bytes") v = .ok n := by
  have hk := ofLine_key h
  rw [← hk] at h
  obtain ⟨m, hm, h⟩ := Option.map_eq_some_iff.1 (show (parseSize (str "max_total_bytes") v).toOption.map _ = _ from h)
  cases h
  exact toOption_eq_some.1 hm

/-- Another key at the top level, or the value a setting is given there. -/
theorem given_top {k v : Str} {e : TopSet} (h : ofLine k v = some e) (f : Shared) (d : f.Val) (st : ParseState) :
    f.get ((e.apply st).tuning, (e.apply st).headers) =
      if k = f.key then ((f.parse v).toOption).getD d else f.get (st.tuning, st.headers) := by
  have hk := ofLine_key h
  obtain ⟨h1, h2, h3, h4, h5, h6, h7⟩ := topKeys_ne f (Shared.mem_all f)
  subst hk
  cases e with
  | shared g x =>
    by_cases hfg : g = f
    · subst hfg
      rw [ofLine_shared h]
      simp [key, apply, Except.toOption, Shared.get_set]
    · have hne : g.key ≠ f.key := fun he =>
        hfg (Shared.key_injective g (Shared.mem_all g) f (Shared.mem_all f) he)
      simp [key, hne, apply, Shared.get_set_other (Ne.symm hfg)]
  | maxTotalBytes n =>
    rw [key, if_neg h3]
    cases f <;> rfl
  | listen => rw [key, if_neg h1]; rfl
  | listenHttp => rw [key, if_neg h2]; rfl
  | maxConnsPerIp => rw [key, if_neg h4]; rfl
  | maxResponseSecs => rw [key, if_neg h5]; rfl
  | storage => rw [key, if_neg h6]; rfl
  | diskCache => rw [key, if_neg h7]; rfl

theorem budget_top {k v : Str} {e : TopSet} (h : ofLine k v = some e) (st : ParseState) :
    (e.apply st).tuning.maxTotalBytes =
      if k = str "max_total_bytes" then ((parseSize (str "max_total_bytes") v).toOption).getD Tuning.default.maxTotalBytes
      else st.tuning.maxTotalBytes := by
  have hk := ofLine_key h
  subst hk
  cases e with
  | maxTotalBytes n =>
    rw [ofLine_maxTotalBytes h]
    rfl
  | shared f x =>
    obtain ⟨-, -, h3, -⟩ := topKeys_ne f (Shared.mem_all f)
    rw [key, if_neg (Ne.symm h3)]
    exact Shared.set_maxTotalBytes f x _
  | _ =>
    simp +decide only [key, if_false]
    rfl

end TopSet

end BareServer
