/-
Runs of letters without separators: text that holds no mark, one free letter, then a mark. What a
sequence of runs is spelled as can be cut in one way only.
-/
import Mathlib.Data.List.Basic
import Mathlib.Tactic

namespace BareServer.Lib

variable {α : Type} {Mark : α → Prop}

/-- A text, a letter of any kind, and a letter that ends the run. -/
structure Run (α : Type) where
  text : List α
  free : α
  mark : α

namespace Run

def letters (r : Run α) : List α := r.text ++ [r.free, r.mark]

/-- Some runs, and an unfinished text, written one after the other. -/
def spelled (rs : List (Run α)) (tail : List α) : List α := rs.flatMap letters ++ tail

/-- The text is not empty and holds no mark, and a mark ends the run. -/
structure Marked (Mark : α → Prop) (r : Run α) : Prop where
  nonempty : r.text ≠ []
  text : ∀ a ∈ r.text, ¬ Mark a
  mark : Mark r.mark

theorem spelled_cons (r : Run α) (rs : List (Run α)) (tail : List α) :
    spelled (r :: rs) tail = r.text ++ r.free :: r.mark :: spelled rs tail := by
  simp only [spelled, letters, List.flatMap_cons, List.append_assoc, List.cons_append, List.nil_append]

/-- No sequence of runs starts with a mark. -/
theorem head_spelled {rs : List (Run α)} {tail : List α} (h : ∀ r ∈ rs, r.Marked Mark) (ht : ∀ a ∈ tail, ¬ Mark a)
    {a : α} {l : List α} (hs : spelled rs tail = a :: l) : ¬ Mark a := by
  cases rs with
  | nil =>
    have htail : tail = a :: l := hs
    exact ht a (htail ▸ List.mem_cons_self)
  | cons r rs =>
    have hr := h r List.mem_cons_self
    obtain ⟨b, text, htext⟩ := List.exists_cons_of_ne_nil hr.nonempty
    rw [spelled_cons, htext, List.cons_append, List.cons.injEq] at hs
    rw [← hs.1]
    exact hr.text b (htext ▸ List.mem_cons_self)

/-- The first run is cut off in one way. -/
theorem first_unique {text text' rest rest' : List α} {s m s' m' : α} (ht : ∀ a ∈ text, ¬ Mark a)
    (ht' : ∀ a ∈ text', ¬ Mark a) (hm : Mark m) (hm' : Mark m') (hrest : ∀ a l, rest = a :: l → ¬ Mark a)
    (hrest' : ∀ a l, rest' = a :: l → ¬ Mark a) (h : text ++ s :: m :: rest = text' ++ s' :: m' :: rest') :
    text = text' ∧ s = s' ∧ m = m' ∧ rest = rest' := by
  induction text generalizing text' with
  | nil =>
    rcases text' with _ | ⟨b, text'⟩
    · cases h
      exact ⟨rfl, rfl, rfl, rfl⟩
    · obtain ⟨-, h⟩ := List.cons.inj h
      rcases text' with _ | ⟨c, text'⟩
      · -- one letter more on the right: the right mark would start the rest on the left
        obtain ⟨-, h⟩ := List.cons.inj h
        exact absurd hm' (hrest m' rest' h)
      · obtain ⟨rfl, -⟩ := List.cons.inj h
        exact absurd hm (ht' m (by simp))
  | cons a text ih =>
    rcases text' with _ | ⟨b, text'⟩
    · obtain ⟨-, h⟩ := List.cons.inj h
      rcases text with _ | ⟨c, text⟩
      · obtain ⟨-, h⟩ := List.cons.inj h
        exact absurd hm (hrest' m rest h.symm)
      · obtain ⟨rfl, -⟩ := List.cons.inj h
        exact absurd hm' (ht c (by simp))
    · obtain ⟨rfl, htail⟩ := List.cons.inj h
      obtain ⟨rfl, hs, hm, hr⟩ := ih (fun x hx => ht x (List.mem_cons_of_mem _ hx))
        (fun x hx => ht' x (List.mem_cons_of_mem _ hx)) htail
      exact ⟨rfl, hs, hm, hr⟩

/-- Marked runs are told apart by their letters. -/
theorem spelled_injective {rs rs' : List (Run α)} {tail tail' : List α} (h : ∀ r ∈ rs, r.Marked Mark)
    (h' : ∀ r ∈ rs', r.Marked Mark) (ht : ∀ a ∈ tail, ¬ Mark a) (ht' : ∀ a ∈ tail', ¬ Mark a)
    (hs : spelled rs tail = spelled rs' tail') : rs = rs' ∧ tail = tail' := by
  have hno : ∀ {r : Run α} {rs : List (Run α)} {tail tail' : List α}, r.Marked Mark → (∀ a ∈ tail', ¬ Mark a) →
      spelled (r :: rs) tail ≠ tail' := by
    rintro r rs tail _ hr ht' rfl
    exact ht' r.mark (by simp [spelled_cons]) hr.mark
  induction rs generalizing rs' with
  | nil =>
    cases rs' with
    | nil => exact ⟨rfl, hs⟩
    | cons r' rs' => exact absurd hs.symm (hno (h' r' List.mem_cons_self) ht)
  | cons r rs ih =>
    cases rs' with
    | nil => exact absurd hs (hno (h r List.mem_cons_self) ht')
    | cons r' rs' =>
      have hr := h r List.mem_cons_self
      have hr' := h' r' List.mem_cons_self
      have hrs := fun x hx => h x (List.mem_cons_of_mem _ hx)
      have hrs' := fun x hx => h' x (List.mem_cons_of_mem _ hx)
      rw [spelled_cons, spelled_cons] at hs
      obtain ⟨htext, hfree, hmark, hrest⟩ := first_unique hr.text hr'.text hr.mark hr'.mark
        (fun a l hl => head_spelled hrs ht hl) (fun a l hl => head_spelled hrs' ht' hl) hs
      obtain ⟨rfl, rfl⟩ := ih hrs hrs' hrest
      obtain ⟨text, free, mark⟩ := r
      obtain ⟨text', free', mark'⟩ := r'
      simp only at htext hfree hmark
      rw [htext, hfree, hmark]
      exact ⟨rfl, rfl⟩

end Run

end BareServer.Lib
