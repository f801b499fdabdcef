/-
Tables keyed by literal prefixes: the entry with the longest key that a path starts with. A scan of
the table in order of decreasing key length finds it, whatever order the entries were recorded in.
-/
import Mathlib.Data.List.Sort
import Mathlib.Data.List.Infix
import Mathlib.Data.List.Basic

namespace BareServer.Lib

variable {α β : Type}

/-- The entry `(key, v)` is the most specific one that a path starts with; `rest` is what follows. -/
structure Longest (table : List (List α × β)) (path key : List α) (v : β) (rest : List α) : Prop where
  mem : (key, v) ∈ table
  split : path = key ++ rest
  longest : ∀ e ∈ table, e.1 <+: path → e.1.length ≤ key.length

namespace Longest

variable {table table' : List (List α × β)} {path key key' rest rest' : List α} {v v' : β}

theorem key_eq (h : Longest table path key v rest) (h' : Longest table path key' v' rest') : key = key' := by
  have hp : key <+: path := ⟨rest, h.split.symm⟩
  have hp' : key' <+: path := ⟨rest', h'.split.symm⟩
  have hle := h.longest _ h'.mem hp'
  have hle' := h'.longest _ h.mem hp
  exact (List.prefix_of_prefix_length_le hp hp' hle').eq_of_length (le_antisymm hle' hle)

/-- With distinct keys there is one such entry. -/
theorem unique (hkeys : (table.map Prod.fst).Nodup) (h : Longest table path key v rest)
    (h' : Longest table path key' v' rest') : v = v' ∧ rest = rest' := by
  have hkey := h.key_eq h'
  subst hkey
  have hv := List.inj_on_of_nodup_map hkeys h.mem h'.mem rfl
  constructor
  · exact congrArg Prod.snd hv
  · exact List.append_cancel_left (h.split.symm.trans h'.split)

/-- Only the entries count, not their order. -/
theorem of_mem_iff (hmem : ∀ e, e ∈ table ↔ e ∈ table') (h : Longest table path key v rest) :
    Longest table' path key v rest :=
  ⟨(hmem _).1 h.mem, h.split, fun e he => h.longest e ((hmem e).2 he)⟩

end Longest

/-! ## Scanning -/

section

variable [BEq α] [LawfulBEq α]

/-- The value of the first entry that a path starts with, and what follows its key. -/
def scanPrefixes (path : List α) : List (List α × β) → Option (β × List α)
  | [] => none
  | (key, v) :: rest =>
    match key.isPrefixOf? path with
    | some cap => some (v, cap)
    | none => scanPrefixes path rest

theorem scanPrefixes_none {path : List α} {table : List (List α × β)} (h : scanPrefixes path table = none) :
    ∀ e ∈ table, ¬ e.1 <+: path := by
  induction table with
  | nil => intro e he; cases he
  | cons kv table ih =>
    obtain ⟨key, v⟩ := kv
    unfold scanPrefixes at h
    cases hk : key.isPrefixOf? path with
    | some cap => rw [hk] at h; cases h
    | none =>
      rw [hk] at h
      rintro e (_ | ⟨_, he⟩)
      · rintro ⟨cap, hcap⟩
        rw [List.isPrefixOf?_eq_some_iff_append_eq.2 hcap] at hk
        cases hk
      · exact ih h e he

/-- A scan in order of decreasing key length finds the longest key. -/
theorem scanPrefixes_longest {path cap : List α} {v : β} {table : List (List α × β)}
    (hsorted : table.Pairwise fun a b => b.1.length ≤ a.1.length) (h : scanPrefixes path table = some (v, cap)) :
    ∃ key, Longest table path key v cap := by
  induction table with
  | nil => cases h
  | cons kv table ih =>
    obtain ⟨key, w⟩ := kv
    rw [List.pairwise_cons] at hsorted
    unfold scanPrefixes at h
    cases hk : key.isPrefixOf? path with
    | some cap' =>
      rw [hk] at h
      cases h
      have hsplit := List.isPrefixOf?_eq_some_iff_append_eq.1 hk
      refine ⟨key, List.mem_cons_self, hsplit.symm, ?_⟩
      rintro e (_ | ⟨_, he⟩) -
      · exact le_refl _
      · exact hsorted.1 e he
    | none =>
      rw [hk] at h
      obtain ⟨key', hl⟩ := ih hsorted.2 h
      refine ⟨key', List.mem_cons_of_mem _ hl.mem, hl.split, ?_⟩
      rintro e (_ | ⟨_, he⟩) hp
      · -- the head was tried and is no prefix
        obtain ⟨cap', hcap'⟩ := hp
        rw [List.isPrefixOf?_eq_some_iff_append_eq.2 hcap'] at hk
        cases hk
      · exact hl.longest e he hp

end
end BareServer.Lib
