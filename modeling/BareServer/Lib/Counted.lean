/-
Allocations with counted handles. A handle that is given back counts down; the last one frees the allocation and
gives back the handles that it owns itself. The counts are exact, and so an allocation is live exactly while some
handle outside the heap leads to it: nothing that is still held is freed, and nothing is left behind.
-/
import Mathlib.Tactic
import Mathlib.Logic.Relation

namespace BareServer.Lib

/-- An allocation: what it holds, how many handles to it are out, and the handles it owns itself. -/
structure Cell (V : Type) where
  value : V
  strong : Nat
  owns : List Nat

def Cell.freed {V : Type} (c : Cell V) : Cell V := { c with strong := 0, owns := [] }

/-- Allocations by their numbers, which are not used twice. -/
abbrev Heap (V : Type) := List (Cell V)

namespace Heap

variable {V : Type} {h h' h'' : Heap V} {i j : Nat} {c c' : Cell V}

def strong (h : Heap V) (i : Nat) : Nat := h[i]?.elim 0 Cell.strong

def owned (h : Heap V) : List Nat := h.flatMap Cell.owns

/-- A new allocation, which takes over some handles; the one handle to it is its number. -/
def alloc (h : Heap V) (v : V) (owns : List Nat) : Heap V := h ++ [⟨v, 1, owns⟩]

def update (h : Heap V) (i : Nat) (f : Cell V → Cell V) : Heap V := h[i]?.elim h fun c => h.set i (f c)

def clone (h : Heap V) (i : Nat) : Heap V := h.update i fun c => { c with strong := c.strong + 1 }

/-- Write a handle into a slot of an allocation. The one it replaces goes to the writer. -/
def replace (h : Heap V) (i slot j : Nat) : Heap V := h.update i fun c => { c with owns := c.owns.set slot j }

/-- Give a handle back, at most `n` allocations deep: the heap, and the values that were freed. -/
def drop : Nat → Heap V → Nat → Heap V × List V
  | 0, h, _ => (h, [])
  | n + 1, h, i =>
    match h[i]? with
    | none => (h, [])
    | some c =>
      if c.strong = 1 then
        c.owns.foldl (fun s j => ((drop n s.1 j).1, s.2 ++ (drop n s.1 j).2)) (h.set i c.freed, [c.value])
      else (h.set i { c with strong := c.strong - 1 }, [])

def dropAll (n : Nat) (h : Heap V) (is : List Nat) : Heap V × List V :=
  is.foldl (fun s j => ((drop n s.1 j).1, s.2 ++ (drop n s.1 j).2)) (h, [])

/-! ## Reading what was written -/

theorem strong_of_get (hc : h[i]? = some c) : h.strong i = c.strong := by
  rw [strong, hc, Option.elim_some]

theorem get_of_strong (hi : 0 < h.strong i) : ∃ c : Cell V, h[i]? = some c ∧ 0 < c.strong := by
  unfold strong at hi
  cases hc : h[i]? with
  | none => simp [hc] at hi
  | some c => exact ⟨c, rfl, by simpa [hc] using hi⟩

theorem update_of_get (hc : h[i]? = some c) (f : Cell V → Cell V) : h.update i f = h.set i (f c) := by
  rw [update, hc, Option.elim_some]

theorem get_set (hc : h[i]? = some c) (c' : Cell V) (j : Nat) : (h.set i c')[j]? = if j = i then some c' else h[j]? := by
  have hi : i < h.length := (List.getElem?_eq_some_iff.1 hc).1
  rw [List.getElem?_set]
  by_cases hj : i = j
  · rw [if_pos hj, if_pos hi, if_pos hj.symm]
  · rw [if_neg hj, if_neg (Ne.symm hj)]

theorem strong_set (hc : h[i]? = some c) (c' : Cell V) (j : Nat) :
    Heap.strong (h.set i c') j = if j = i then c'.strong else h.strong j := by
  rw [strong, get_set hc]
  split
  · rfl
  · rfl

theorem get_alloc (v : V) (owns : List Nat) (j : Nat) :
    (h.alloc v owns)[j]? = if j = h.length then some ⟨v, 1, owns⟩ else h[j]? := by
  rw [alloc, List.getElem?_append]
  split
  · rename_i hj
    rw [if_neg (by omega)]
  · rename_i hj
    split
    · rename_i heq
      simp [heq]
    · rename_i hne
      rw [List.getElem?_eq_none (by simp; omega), List.getElem?_eq_none (by omega)]

theorem strong_alloc (v : V) (owns : List Nat) (j : Nat) :
    (h.alloc v owns).strong j = if j = h.length then 1 else h.strong j := by
  rw [strong, get_alloc]
  split
  · rfl
  · rfl

/-- A write exchanges the handles of one allocation. -/
theorem count_owned_set (hc : h[i]? = some c) (c' : Cell V) (j : Nat) :
    (owned (h.set i c')).count j + c.owns.count j = h.owned.count j + c'.owns.count j := by
  induction h generalizing i with
  | nil => cases hc
  | cons d h ih =>
    cases i with
    | zero =>
      cases hc
      simp only [owned, List.set_cons_zero, List.flatMap_cons, List.count_append]
      omega
    | succ i =>
      have hrest := ih (by simpa using hc)
      simp only [owned, List.set_cons_succ, List.flatMap_cons, List.count_append] at hrest ⊢
      omega

theorem count_owned_alloc (v : V) (owns : List Nat) (j : Nat) :
    (h.alloc v owns).owned.count j = h.owned.count j + owns.count j := by
  simp [owned, alloc]

theorem mem_owned : j ∈ h.owned ↔ ∃ (i : Nat) (c : Cell V), h[i]? = some c ∧ j ∈ c.owns := by
  rw [owned, List.mem_flatMap]
  constructor
  · rintro ⟨c, hc, hj⟩
    obtain ⟨i, hi⟩ := List.getElem?_of_mem hc
    exact ⟨i, c, hi, hj⟩
  · rintro ⟨i, c, hc, hj⟩
    exact ⟨c, List.mem_of_getElem? hc, hj⟩

/-! ## Books -/

/-- The books of a heap, with handles held outside it: every count is that of the handles that are out, an allocation
owns handles to allocations of a lower rank only, and a freed one owns none. -/
structure Books (rank : V → Nat) (h : Heap V) (held : Nat → Nat) : Prop where
  exact : ∀ i, h.strong i = held i + h.owned.count i
  below : ∀ (i : Nat) (c : Cell V), h[i]? = some c → ∀ j ∈ c.owns, ∃ d : Cell V, h[j]? = some d ∧ rank d.value < rank c.value
  tidy : ∀ (i : Nat) (c : Cell V), h[i]? = some c → c.strong = 0 → c.owns = []

variable {rank : V → Nat} {held : Nat → Nat} {n : Nat}

theorem Books.empty : Books rank ([] : Heap V) 0 := by
  refine ⟨fun i => rfl, ?_, ?_⟩
  · rintro i c hc
    cases hc
  · rintro i c hc
    cases hc

namespace Books

theorem live (hb : Books rank h held) (hi : 0 < held i) : 0 < h.strong i := by
  have := hb.exact i
  omega

theorem get (hb : Books rank h held) (hi : 0 < held i) : ∃ c : Cell V, h[i]? = some c ∧ 0 < c.strong := get_of_strong (hb.live hi)

theorem live_owned (hb : Books rank h held) (hc : h[i]? = some c) (hj : j ∈ c.owns) : 0 < h.strong j := by
  have hmem : 0 < h.owned.count j := List.count_pos_iff.2 (mem_owned.2 ⟨i, c, hc, hj⟩)
  have := hb.exact j
  omega

theorem congr (hb : Books rank h held) {held' : Nat → Nat} (he : ∀ i, held' i = held i) : Books rank h held' := by
  rw [funext he]
  exact hb

theorem set (hb : Books rank h held) {held' : Nat → Nat} (hc : h[i]? = some c) (hv : c'.value = c.value)
    (hexact : ∀ j, (if j = i then c'.strong else h.strong j) + c.owns.count j =
      held' j + h.owned.count j + c'.owns.count j)
    (hbelow : ∀ j ∈ c'.owns, ∃ d : Cell V, h[j]? = some d ∧ rank d.value < rank c.value)
    (htidy : c'.strong = 0 → c'.owns = []) : Books rank (h.set i c') held' := by
  -- no write changes a value
  have hsame : ∀ (j : Nat) (d : Cell V), h[j]? = some d → ∃ d' : Cell V, (List.set h i c')[j]? = some d' ∧ d'.value = d.value := by
    intro j d hd
    by_cases hj : j = i
    · subst hj
      cases hc.symm.trans hd
      exact ⟨c', by rw [get_set hc, if_pos rfl], hv⟩
    · exact ⟨d, by rw [get_set hc, if_neg hj, hd], rfl⟩
  have hcell : ∀ (j : Nat) (d : Cell V), (List.set h i c')[j]? = some d → j = i ∧ d = c' ∨ j ≠ i ∧ h[j]? = some d := by
    intro j d hd
    rw [get_set hc] at hd
    split at hd
    · rename_i hj
      cases hd
      exact .inl ⟨hj, rfl⟩
    · rename_i hj
      exact .inr ⟨hj, hd⟩
  refine ⟨fun j => ?_, fun j d hd k hk => ?_, fun j d hd hzero => ?_⟩
  · have hcount := count_owned_set hc c' j
    have := hexact j
    rw [strong_set hc]
    omega
  · have hlower : ∃ e, h[k]? = some e ∧ rank e.value < rank d.value := by
      rcases hcell j d hd with ⟨-, rfl⟩ | ⟨-, hold⟩
      · rw [hv]
        exact hbelow k hk
      · exact hb.below j d hold k hk
    obtain ⟨e, he, hlt⟩ := hlower
    obtain ⟨e', he', hval⟩ := hsame k e he
    exact ⟨e', he', hval ▸ hlt⟩
  · rcases hcell j d hd with ⟨-, rfl⟩ | ⟨-, hold⟩
    · exact htidy hzero
    · exact hb.tidy j d hold hzero

/-- A new allocation takes over handles to lower ones, and is held by one handle. -/
theorem alloc (v : V) (is : List Nat) (hb : Books rank h fun j => is.count j + held j)
    (hlow : ∀ i ∈ is, ∃ d : Cell V, h[i]? = some d ∧ rank d.value < rank v) :
    Books rank (h.alloc v is) fun j => (if j = h.length then 1 else 0) + held j := by
  -- nothing leads to what is not allocated yet
  have hfresh : held h.length = 0 ∧ h.owned.count h.length = 0 ∧ is.count h.length = 0 := by
    have := hb.exact h.length
    rw [strong, List.getElem?_eq_none (le_refl _), Option.elim_none] at this
    omega
  have hkeep : ∀ (j : Nat) (d : Cell V), h[j]? = some d → (h.alloc v is)[j]? = some d := by
    intro j d hd
    have hj : j < h.length := (List.getElem?_eq_some_iff.1 hd).1
    rw [get_alloc, if_neg (by omega), hd]
  refine ⟨fun j => ?_, fun j d hd k hk => ?_, fun j d hd hzero => ?_⟩
  · rw [strong_alloc, count_owned_alloc]
    split
    · rename_i hj
      subst hj
      omega
    · have := hb.exact j
      omega
  · rw [get_alloc] at hd
    split at hd
    · cases hd
      obtain ⟨e, he, hlt⟩ := hlow k hk
      exact ⟨e, hkeep k e he, hlt⟩
    · obtain ⟨e, he, hlt⟩ := hb.below j d hd k hk
      exact ⟨e, hkeep k e he, hlt⟩
  · rw [get_alloc] at hd
    split at hd
    · cases hd
      cases hzero
    · exact hb.tidy j d hd hzero

theorem clone (hb : Books rank h held) (hi : 0 < h.strong i) :
    Books rank (h.clone i) fun j => (if j = i then 1 else 0) + held j := by
  obtain ⟨c, hc, hpos⟩ := get_of_strong hi
  rw [Heap.clone, update_of_get hc]
  refine hb.set hc rfl (fun j => ?_) (fun j hj => hb.below i c hc j hj) (fun hzero => by simp at hzero)
  have := hb.exact j
  split
  · rename_i hj
    subst hj
    rw [strong_of_get hc] at this
    simp only
    omega
  · simp only
    omega

/-- A handle that is held goes into a slot of a live allocation, for the one that was there. -/
theorem replace {slot old : Nat} (hb : Books rank h fun k => (if k = j then 1 else 0) + held k) (hc : h[i]? = some c)
    (hold : c.owns[slot]? = some old) {d : Cell V} (hd : h[j]? = some d) (hlow : rank d.value < rank c.value) :
    Books rank (h.replace i slot j) fun k => (if k = old then 1 else 0) + held k := by
  have hlive : c.strong ≠ 0 := fun hzero => by
    rw [hb.tidy i c hc hzero] at hold
    cases hold
  have hslot : slot < c.owns.length := (List.getElem?_eq_some_iff.1 hold).1
  rw [Heap.replace, update_of_get hc]
  refine hb.set hc rfl (fun k => ?_) (fun k hk => ?_) (fun hzero => absurd hzero hlive)
  · have hstrong : (if k = i then c.strong else h.strong k) = h.strong k := by
      split
      · rename_i hk
        rw [hk, strong_of_get hc]
      · rfl
    have := hb.exact k
    simp only at this ⊢
    rw [hstrong, List.count_set hslot, this]
    have hslotOld : c.owns[slot] = old := (List.getElem?_eq_some_iff.1 hold).2
    have hcount : (if c.owns[slot] == k then 1 else 0) ≤ c.owns.count k := by
      split
      · rename_i heq
        exact List.count_pos_iff.2 (beq_iff_eq.1 heq ▸ List.getElem_mem hslot)
      · exact Nat.zero_le _
    rw [hslotOld] at hcount ⊢
    simp only [beq_iff_eq, eq_comm (a := k)] at hcount ⊢
    omega
  · rcases List.mem_or_eq_of_mem_set hk with hk | rfl
    · exact hb.below i c hc k hk
    · exact ⟨d, hd, hlow⟩

end Books

/-! ## Giving handles back -/

/-- What giving handles back does to a heap: no allocation gains handles or changes its value, what stays live owns what
it owned, and the values freed are those of the allocations that were live and are not. -/
structure Dropped (h h' : Heap V) (freed : List V) : Prop where
  length : h'.length = h.length
  kept : ∀ (i : Nat) (c : Cell V), h[i]? = some c → ∃ c' : Cell V, h'[i]? = some c' ∧ c'.value = c.value ∧ c'.strong ≤ c.strong ∧
    (0 < c'.strong → c'.owns = c.owns)
  died : ∀ v, v ∈ freed ↔ ∃ (i : Nat) (c : Cell V), h[i]? = some c ∧ c.value = v ∧ 0 < c.strong ∧ h'.strong i = 0

namespace Dropped

theorem refl (h : Heap V) : Dropped h h [] := by
  refine ⟨rfl, fun i c hc => ⟨c, hc, rfl, le_rfl, fun _ => rfl⟩, fun v => ⟨nofun, ?_⟩⟩
  rintro ⟨i, c, hc, -, hpos, hzero⟩
  rw [strong_of_get hc] at hzero
  omega

theorem trans {vs ws : List V} (hd : Dropped h h' vs) (hd' : Dropped h' h'' ws) : Dropped h h'' (vs ++ ws) := by
  refine ⟨hd'.length.trans hd.length, fun i c hc => ?_, fun v => ?_⟩
  · obtain ⟨c', hc', hv, hle, howns⟩ := hd.kept i c hc
    obtain ⟨c'', hc'', hv', hle', howns'⟩ := hd'.kept i c' hc'
    exact ⟨c'', hc'', hv'.trans hv, hle'.trans hle, fun hpos => (howns' hpos).trans (howns (by omega))⟩
  · rw [List.mem_append, hd.died, hd'.died]
    constructor
    · rintro (⟨i, c, hc, hv, hpos, hzero⟩ | ⟨i, c', hc', hv, hpos, hzero⟩)
      · refine ⟨i, c, hc, hv, hpos, ?_⟩
        obtain ⟨c', hc', -⟩ := hd.kept i c hc
        obtain ⟨c'', hc'', -, hle, -⟩ := hd'.kept i c' hc'
        rw [strong_of_get hc'] at hzero
        rw [strong_of_get hc'']
        omega
      · obtain ⟨c, hc⟩ : ∃ c : Cell V, h[i]? = some c := by
          have hlt : i < h.length := hd.length ▸ (List.getElem?_eq_some_iff.1 hc').1
          exact ⟨h[i], List.getElem?_eq_getElem hlt⟩
        obtain ⟨d, hd1, hval, hle, -⟩ := hd.kept i c hc
        cases hc'.symm.trans hd1
        exact ⟨i, c, hc, hval ▸ hv, by omega, hzero⟩
    · rintro ⟨i, c, hc, hv, hpos, hzero⟩
      obtain ⟨c', hc', hval, -, -⟩ := hd.kept i c hc
      by_cases hmid : c'.strong = 0
      · exact .inl ⟨i, c, hc, hv, hpos, by rw [strong_of_get hc', hmid]⟩
      · exact .inr ⟨i, c', hc', hval.trans hv, by omega, hzero⟩

/-- One count less, and still live. -/
theorem less (hc : h[i]? = some c) (hlive : 1 < c.strong) : Dropped h (h.set i { c with strong := c.strong - 1 }) [] := by
  refine ⟨List.length_set, fun j d hd => ?_, fun v => ⟨nofun, ?_⟩⟩
  · by_cases hj : j = i
    · subst hj
      cases hc.symm.trans hd
      exact ⟨{ c with strong := c.strong - 1 }, by rw [get_set hc, if_pos rfl], rfl, Nat.sub_le _ _, fun _ => rfl⟩
    · exact ⟨d, by rw [get_set hc, if_neg hj, hd], rfl, le_rfl, fun _ => rfl⟩
  · rintro ⟨j, d, hd, -, hpos, hzero⟩
    rw [strong_set hc] at hzero
    split at hzero
    · simp only at hzero
      omega
    · rw [strong_of_get hd] at hzero
      omega

/-- The last handle frees one allocation. -/
theorem last (hc : h[i]? = some c) (hone : c.strong = 1) : Dropped h (h.set i c.freed) [c.value] := by
  refine ⟨List.length_set, fun j d hd => ?_, fun v => ?_⟩
  · by_cases hj : j = i
    · subst hj
      cases hc.symm.trans hd
      exact ⟨c.freed, by rw [get_set hc, if_pos rfl], rfl, Nat.zero_le _, fun hpos => absurd hpos (lt_irrefl 0)⟩
    · exact ⟨d, by rw [get_set hc, if_neg hj, hd], rfl, le_rfl, fun _ => rfl⟩
  · rw [List.mem_singleton]
    constructor
    · rintro rfl
      exact ⟨i, c, hc, rfl, by omega, by rw [strong_set hc, if_pos rfl]; rfl⟩
    · rintro ⟨j, d, hd, rfl, hpos, hzero⟩
      rw [strong_set hc] at hzero
      split at hzero
      · rename_i hj
        subst hj
        cases hc.symm.trans hd
        rfl
      · rw [strong_of_get hd] at hzero
        omega

end Dropped

/-- Handles given back one after the other, each as it should be. -/
theorem foldl_spec {d : Heap V → Nat → Heap V × List V}
    (hd : ∀ {h : Heap V} {i : Nat} {held : Nat → Nat}, Books rank h (fun j => (if j = i then 1 else 0) + held j) →
      (∀ c : Cell V, h[i]? = some c → rank c.value < n) → Books rank (d h i).1 held ∧ Dropped h (d h i).1 (d h i).2) :
    ∀ (is : List Nat) (h : Heap V) (vs : List V) (held : Nat → Nat), Books rank h (fun j => is.count j + held j) →
      (∀ i ∈ is, ∀ c : Cell V, h[i]? = some c → rank c.value < n) →
      ∃ ws, (is.foldl (fun s j => ((d s.1 j).1, s.2 ++ (d s.1 j).2)) (h, vs)).2 = vs ++ ws ∧
        Books rank (is.foldl (fun s j => ((d s.1 j).1, s.2 ++ (d s.1 j).2)) (h, vs)).1 held ∧
        Dropped h (is.foldl (fun s j => ((d s.1 j).1, s.2 ++ (d s.1 j).2)) (h, vs)).1 ws := by
  intro is
  induction is with
  | nil =>
    intro h vs held hb _
    exact ⟨[], by simp, hb.congr fun j => by simp, Dropped.refl h⟩
  | cons i is ih =>
    intro h vs held hb hrank
    have hone : Books rank h (fun j => (if j = i then 1 else 0) + (is.count j + held j)) := by
      refine hb.congr fun j => ?_
      rw [List.count_cons]
      simp only [beq_iff_eq, eq_comm (a := j)]
      omega
    obtain ⟨hb', hdrop⟩ := hd hone (hrank i List.mem_cons_self)
    have hrank' : ∀ k ∈ is, ∀ c' : Cell V, (d h i).1[k]? = some c' → rank c'.value < n := by
      intro k hk c' hc'
      have hlt : k < h.length := hdrop.length ▸ (List.getElem?_eq_some_iff.1 hc').1
      have hget : h[k]? = some h[k] := List.getElem?_eq_getElem hlt
      obtain ⟨c'', hc'', hval, -⟩ := hdrop.kept k _ hget
      cases hc'.symm.trans hc''
      rw [hval]
      exact hrank k (List.mem_cons_of_mem _ hk) _ hget
    obtain ⟨ws, hws, hbooks, hrest⟩ := ih (d h i).1 (vs ++ (d h i).2) held hb' hrank'
    refine ⟨(d h i).2 ++ ws, ?_, hbooks, hdrop.trans hrest⟩
    rw [List.foldl_cons, hws, List.append_assoc]

/-- Giving back a handle that is held keeps the books, when the depth suffices for its rank. -/
theorem drop_spec : ∀ {n : Nat} {h : Heap V} {i : Nat} {held : Nat → Nat},
    Books rank h (fun j => (if j = i then 1 else 0) + held j) → (∀ c : Cell V, h[i]? = some c → rank c.value < n) →
      Books rank (drop n h i).1 held ∧ Dropped h (drop n h i).1 (drop n h i).2 := by
  intro n
  induction n with
  | zero =>
    intro h i held hb hrank
    obtain ⟨c, hc, -⟩ := hb.get (i := i) (by simp)
    exact absurd (hrank c hc) (Nat.not_lt_zero _)
  | succ n ih =>
    intro h i held hb hrank
    obtain ⟨c, hc, hpos⟩ := hb.get (i := i) (by simp)
    have hexact := hb.exact i
    rw [strong_of_get hc, if_pos rfl] at hexact
    rw [drop, hc]
    by_cases hone : c.strong = 1
    · simp only [if_pos hone]
      -- the freed allocation's handles are held now
      have hfreed : Books rank (h.set i c.freed) fun j => c.owns.count j + held j := by
        refine hb.set hc rfl (fun j => ?_) (fun j hj => by cases hj) (fun _ => rfl)
        have := hb.exact j
        simp only [Cell.freed, List.count_nil] at this ⊢
        by_cases hj : j = i
        · subst hj
          rw [if_pos rfl]
          omega
        · rw [if_neg hj] at this ⊢
          omega
      have hlow : ∀ j ∈ c.owns, ∀ d : Cell V, (List.set h i c.freed)[j]? = some d → rank d.value < n := by
        intro j hj d hd
        obtain ⟨e, he, hlt⟩ := hb.below i c hc j hj
        obtain ⟨e', he', hval, -⟩ := (Dropped.last hc hone).kept j e he
        cases hd.symm.trans he'
        have := hrank c hc
        rw [hval]
        omega
      obtain ⟨ws, hws, hbooks, hdropped⟩ := foldl_spec ih c.owns _ [c.value] held hfreed hlow
      rw [hws]
      exact ⟨hbooks, (Dropped.last hc hone).trans hdropped⟩
    · simp only [if_neg hone]
      refine ⟨hb.set hc rfl (fun j => ?_) (fun j hj => hb.below i c hc j hj) (fun hzero => ?_), Dropped.less hc (by omega)⟩
      · have := hb.exact j
        simp only at this ⊢
        by_cases hj : j = i
        · subst hj
          rw [if_pos rfl] at this ⊢
          rw [strong_of_get hc] at this
          omega
        · rw [if_neg hj] at this ⊢
          omega
      · simp only at hzero
        omega

theorem dropAll_spec {is : List Nat} (hb : Books rank h fun j => is.count j + held j)
    (hrank : ∀ i ∈ is, ∀ c : Cell V, h[i]? = some c → rank c.value < n) :
    Books rank (dropAll n h is).1 held ∧ Dropped h (dropAll n h is).1 (dropAll n h is).2 := by
  obtain ⟨ws, hws, hbooks, hdropped⟩ := foldl_spec drop_spec is h [] held hb hrank
  rw [dropAll, hws]
  exact ⟨hbooks, hdropped⟩

/-! ## What is live -/

/-- One allocation owns a handle to another. -/
def Leads (h : Heap V) (i j : Nat) : Prop := ∃ c : Cell V, h[i]? = some c ∧ j ∈ c.owns

/-- An allocation is live exactly while a handle that is held outside leads to it. -/
theorem Books.live_iff (hb : Books rank h held) (j : Nat) :
    0 < h.strong j ↔ ∃ i, 0 < held i ∧ Relation.ReflTransGen h.Leads i j := by
  constructor
  · -- what owns an allocation is of a higher rank, and the ranks are bounded
    have hbound : ∃ R, ∀ (i : Nat) (c : Cell V), h[i]? = some c → rank c.value ≤ R := by
      refine ⟨(h.map fun c => rank c.value).sum, fun i c hc => ?_⟩
      exact List.le_sum_of_mem (List.mem_map_of_mem (List.mem_of_getElem? hc))
    obtain ⟨R, hR⟩ := hbound
    intro hlive
    obtain ⟨c, hc, -⟩ := get_of_strong hlive
    induction hk : R - rank c.value using Nat.strong_induction_on generalizing j c with
    | _ k ih =>
      by_cases hheld : 0 < held j
      · exact ⟨j, hheld, .refl⟩
      · have hexact := hb.exact j
        have hmem : j ∈ h.owned := List.count_pos_iff.1 (by omega)
        obtain ⟨i, d, hd, hj⟩ := mem_owned.1 hmem
        obtain ⟨c', hc', hlt⟩ := hb.below i d hd j hj
        cases hc.symm.trans hc'
        have hdlive : 0 < h.strong i := by
          rw [strong_of_get hd]
          refine Nat.pos_of_ne_zero fun hzero => ?_
          rw [hb.tidy i d hd hzero] at hj
          cases hj
        have hdR := hR i d hd
        obtain ⟨r, hr, hpath⟩ := ih (R - rank d.value) (by omega) i hdlive d hd rfl
        exact ⟨r, hr, hpath.tail ⟨d, hd, hj⟩⟩
  · rintro ⟨i, hi, hpath⟩
    induction hpath with
    | refl => exact hb.live hi
    | tail _ hlead _ =>
      obtain ⟨c, hc, hj⟩ := hlead
      exact hb.live_owned hc hj

end Heap
end BareServer.Lib
