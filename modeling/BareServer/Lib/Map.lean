/-
Finite maps: association lists with distinct keys, read as a hash map whose iteration order is the
list's.
-/
import Mathlib.Algebra.GroupWithZero.Nat
import Mathlib.Data.List.AList

namespace BareServer.Lib

/-- A finite map from `α` to `β`. -/
abbrev Map (α β : Type) := AList fun _ : α => β

namespace Map

variable {α β γ : Type}

def values (m : Map α β) : List β := m.entries.map fun e => e.2

def pairs (m : Map α β) : List (α × β) := m.entries.map fun e => (e.1, e.2)

def mapVal (f : β → γ) (m : Map α β) : Map α γ :=
  ⟨m.entries.map fun e => ⟨e.1, f e.2⟩, by
    have h := m.nodupKeys
    rw [List.NodupKeys, List.keys, List.map_map]
    exact h⟩

theorem values_mapVal (f : β → γ) (m : Map α β) : (mapVal f m).values = m.values.map f := by
  simp only [values, mapVal, List.map_map, Function.comp_def]

theorem mapVal_mapVal {δ : Type} (g : γ → δ) (f : β → γ) (m : Map α β) : mapVal g (mapVal f m) = mapVal (fun v => g (f v)) m :=
  AList.ext (by simp only [mapVal, List.map_map, Function.comp_def])

theorem nodup_pairs (m : Map α β) : (m.pairs.map Prod.fst).Nodup := by
  rw [pairs, List.map_map]
  exact m.nodupKeys

variable [DecidableEq α]

@[simp] theorem lookup_mapVal (f : β → γ) (m : Map α β) (a : α) :
    (mapVal f m).lookup a = (m.lookup a).map f := by
  obtain ⟨l, h⟩ := m
  simp only [mapVal, AList.lookup]
  clear h
  induction l with
  | nil => rfl
  | cons e l ih =>
    obtain ⟨k, v⟩ := e
    by_cases hk : k = a
    · subst hk; simp
    · rw [List.map_cons, List.dlookup_cons_ne _ _ (Ne.symm hk), List.dlookup_cons_ne _ _ (Ne.symm hk)]
      exact ih

theorem mapVal_congr {f g : β → γ} {m : Map α β} (h : ∀ a v, m.lookup a = some v → f v = g v) : mapVal f m = mapVal g m := by
  refine AList.ext (List.map_congr_left fun e he => ?_)
  rw [h e.1 e.2 (AList.mem_lookup_iff.2 he)]

theorem mapVal_same {f : β → β} {m : Map α β} (h : ∀ a v, m.lookup a = some v → f v = v) : mapVal f m = m := by
  refine AList.ext ((List.map_congr_left fun e he => ?_).trans (List.map_id _))
  rw [h e.1 e.2 (AList.mem_lookup_iff.2 he)]
  rfl

theorem lookup_insert' (a b : α) (v : β) (m : Map α β) :
    (m.insert a v).lookup b = if b = a then some v else m.lookup b := by
  split
  · rename_i h; subst h; exact AList.lookup_insert m
  · rename_i h; exact AList.lookup_insert_ne h

theorem mem_values {m : Map α β} {v : β} : v ∈ m.values ↔ ∃ a, m.lookup a = some v := by
  constructor
  · intro h
    obtain ⟨⟨a, w⟩, he, rfl⟩ := List.mem_map.1 h
    exact ⟨a, AList.mem_lookup_iff.2 he⟩
  · rintro ⟨a, h⟩
    exact List.mem_map.2 ⟨⟨a, v⟩, AList.mem_lookup_iff.1 h, rfl⟩

theorem mem_pairs {m : Map α β} {a : α} {v : β} : (a, v) ∈ m.pairs ↔ m.lookup a = some v := by
  rw [← Option.mem_def, AList.mem_lookup_iff, pairs, List.mem_map]
  constructor
  · rintro ⟨⟨b, w⟩, he, heq⟩
    cases heq
    exact he
  · exact fun he => ⟨⟨a, v⟩, he, rfl⟩

theorem values_insert {m : Map α β} {a : α} (h : m.lookup a = none) (v : β) :
    values (m.insert a v) = v :: m.values := by
  rw [values, AList.entries_insert_of_notMem (AList.lookup_eq_none.1 h), List.map_cons]
  rfl

/-! ## What the values weigh -/

section

variable (w : β → Nat)

def weigh (m : Map α β) : Nat := (m.values.map w).sum

/-- An insertion adds the weight of its value and takes that of the value it replaces. -/
theorem weigh_insert (m : Map α β) (a : α) (v : β) : weigh w (m.insert a v) + (m.lookup a).elim 0 w = weigh w m + w v := by
  have hnew : weigh w (m.insert a v) = w v + ((List.kerase a m.entries).map fun e => w e.2).sum := by
    rw [weigh, values, AList.entries_insert, List.map_cons, List.map_cons, List.sum_cons, List.map_map]
    rfl
  have hold : weigh w m = (m.entries.map fun e => w e.2).sum := by
    rw [weigh, values, List.map_map]
    rfl
  rw [hnew, hold]
  cases hl : m.lookup a with
  | none =>
    rw [List.kerase_of_notMem_keys (AList.lookup_eq_none.1 hl), Option.elim_none]
    omega
  | some b =>
    have hmem : a ∈ m.entries.keys := by
      by_contra hno
      rw [AList.lookup_eq_none.2 hno] at hl
      cases hl
    obtain ⟨b', l, r, hno, hentries, hkerase⟩ := List.exists_of_kerase hmem
    have hb : b' = b := by
      have hlookup : m.lookup a = some b' := AList.mem_lookup_iff.2 (by rw [hentries]; simp)
      rw [hl] at hlookup
      exact (Option.some.inj hlookup).symm
    rw [hkerase, hentries, hb]
    simp only [List.map_append, List.map_cons, List.sum_append, List.sum_cons, Option.elim_some]
    omega

def insertAll (m : Map α β) (l : List (α × β)) : Map α β := l.foldl (fun m e => m.insert e.1 e.2) m

theorem weigh_insertAll_le (m : Map α β) (l : List (α × β)) :
    weigh w (m.insertAll l) ≤ weigh w m + (l.map fun e => w e.2).sum := by
  induction l generalizing m with
  | nil => exact le_rfl
  | cons e l ih =>
    have hrest := ih (m.insert e.1 e.2)
    have hone := weigh_insert w m e.1 e.2
    rw [insertAll, List.foldl_cons, List.map_cons, List.sum_cons]
    rw [insertAll] at hrest
    omega

variable {w}

/-- Pairs of positive weight add all they weigh exactly when none replaces another. -/
theorem weigh_insertAll_eq_iff {m : Map α β} {l : List (α × β)} (hm : ∀ a v, m.lookup a = some v → 0 < w v)
    (hl : ∀ e ∈ l, 0 < w e.2) : weigh w (m.insertAll l) = weigh w m + (l.map fun e => w e.2).sum ↔
      (l.map Prod.fst).Nodup ∧ ∀ e ∈ l, m.lookup e.1 = none := by
  induction l generalizing m with
  | nil => simp [insertAll]
  | cons e l ih =>
    have hone := weigh_insert w m e.1 e.2
    have hle := weigh_insertAll_le w (m.insert e.1 e.2) l
    have hrest := @ih (m.insert e.1 e.2) (fun a v h => by
      rw [lookup_insert'] at h
      split at h
      · cases h
        exact hl e List.mem_cons_self
      · exact hm a v h) fun e' he' => hl e' (List.mem_cons_of_mem _ he')
    rw [insertAll, List.foldl_cons, List.map_cons, List.sum_cons, List.map_cons, List.nodup_cons]
    change weigh w (insertAll (m.insert e.1 e.2) l) = _ ↔ _
    cases hlook : m.lookup e.1 with
    | some v =>
      -- what is replaced had a weight
      have hpos := hm _ _ hlook
      rw [hlook, Option.elim_some] at hone
      refine iff_of_false (by omega) fun h => ?_
      rw [h.2 e List.mem_cons_self] at hlook
      cases hlook
    | none =>
      rw [hlook, Option.elim_none] at hone
      have hsum : weigh w (m.insert e.1 e.2) + (l.map fun e => w e.2).sum =
          weigh w m + (w e.2 + (l.map fun e => w e.2).sum) := by omega
      have hins : ∀ e' : α × β, (m.insert e.1 e.2).lookup e'.1 = none ↔ e'.1 ≠ e.1 ∧ m.lookup e'.1 = none := by
        intro e'
        rw [lookup_insert']
        split <;> simp_all
      rw [← hsum, hrest]
      constructor
      · rintro ⟨hn, hfree⟩
        refine ⟨⟨fun hmem => ?_, hn⟩, List.forall_mem_cons.2 ⟨hlook, fun e' he' => ((hins e').1 (hfree e' he')).2⟩⟩
        obtain ⟨e', he', heq⟩ := List.mem_map.1 hmem
        exact ((hins e').1 (hfree e' he')).1 heq
      · rintro ⟨⟨hno, hn⟩, hfree⟩
        refine ⟨hn, fun e' he' => (hins e').2 ⟨fun heq => hno (List.mem_map.2 ⟨e', he', heq⟩), ?_⟩⟩
        exact hfree e' (List.mem_cons_of_mem _ he')

end

theorem lookup_insertAll_of_notMem {m : Map α β} {l : List (α × β)} {a : α} (h : a ∉ l.map Prod.fst) :
    (m.insertAll l).lookup a = m.lookup a := by
  induction l generalizing m with
  | nil => rfl
  | cons e l ih =>
    rw [List.map_cons, List.mem_cons, not_or] at h
    rw [insertAll, List.foldl_cons]
    exact (ih h.2).trans (AList.lookup_insert_ne h.1)

/-- A pair whose key comes once is found under it. -/
theorem lookup_insertAll_of_mem {m : Map α β} {l : List (α × β)} (hn : (l.map Prod.fst).Nodup) {a : α} {v : β}
    (h : (a, v) ∈ l) : (m.insertAll l).lookup a = some v := by
  induction l generalizing m with
  | nil => cases h
  | cons e l ih =>
    rw [List.map_cons, List.nodup_cons] at hn
    rw [insertAll, List.foldl_cons]
    rcases List.mem_cons.1 h with rfl | h
    · exact (lookup_insertAll_of_notMem hn.1).trans (AList.lookup_insert _)
    · exact ih hn.2 h

/-- Pairs with distinct keys give one map in any order. -/
theorem lookup_insertAll_perm {m : Map α β} {l l' : List (α × β)} (hn : (l.map Prod.fst).Nodup) (hp : l.Perm l') (a : α) :
    (m.insertAll l').lookup a = (m.insertAll l).lookup a := by
  by_cases ha : a ∈ l.map Prod.fst
  · obtain ⟨⟨b, v⟩, hmem, rfl⟩ := List.mem_map.1 ha
    rw [lookup_insertAll_of_mem hn hmem, lookup_insertAll_of_mem ((hp.map _).nodup_iff.1 hn) (hp.mem_iff.1 hmem)]
  · rw [lookup_insertAll_of_notMem ha, lookup_insertAll_of_notMem (mt (hp.map _).mem_iff.2 ha)]

end Map
end BareServer.Lib
