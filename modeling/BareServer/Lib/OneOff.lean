/-
Lists that differ at one place, and what sorting, flattening and folding make of the difference. A fold
whose step cancels, in the accumulator and in the element, tells such lists apart.
-/
import Mathlib.Data.List.Sort
import Mathlib.Tactic

namespace BareServer.Lib

variable {α β : Type} {R : α → α → Prop} {S : β → β → Prop} {l l' : List α}

/-! ## One place -/

/-- Related elements at one place, the same elements at the others. -/
inductive OneOff (R : α → α → Prop) : List α → List α → Prop
  | here {a a' : α} (l : List α) (h : R a a') : OneOff R (a :: l) (a' :: l)
  | later (a : α) {l l' : List α} (h : OneOff R l l') : OneOff R (a :: l) (a :: l')

namespace OneOff

theorem append_left (m : List α) (h : OneOff R l l') : OneOff R (m ++ l) (m ++ l') := by
  induction m with
  | nil => exact h
  | cons a m ih => exact .later a ih

theorem append_right (h : OneOff R l l') (m : List α) : OneOff R (l ++ m) (l' ++ m) := by
  induction h with
  | here l h => exact .here (l ++ m) h
  | later a _ ih => exact .later a ih

theorem middle {a a' : α} (before after : List α) (h : R a a') :
    OneOff R (before ++ a :: after) (before ++ a' :: after) :=
  append_left before (.here after h)

theorem map {f : α → β} (hf : ∀ a a', R a a' → S (f a) (f a')) (h : OneOff R l l') : OneOff S (l.map f) (l'.map f) := by
  induction h with
  | here l h => exact .here _ (hf _ _ h)
  | later a _ ih => exact .later _ ih

theorem flatMap {f : α → List β} (hf : ∀ a a', R a a' → OneOff S (f a) (f a')) (h : OneOff R l l') :
    OneOff S (l.flatMap f) (l'.flatMap f) := by
  induction h with
  | here l h =>
    rw [List.flatMap_cons, List.flatMap_cons]
    exact (hf _ _ h).append_right _
  | later a _ ih =>
    rw [List.flatMap_cons, List.flatMap_cons]
    exact ih.append_left _

/-- What does not see the difference gives one result. -/
theorem map_eq {f : α → β} (hf : ∀ a a', R a a' → f a = f a') (h : OneOff R l l') : l.map f = l'.map f := by
  induction h with
  | here l h => rw [List.map_cons, List.map_cons, hf _ _ h]
  | later a _ ih => rw [List.map_cons, List.map_cons, ih]

theorem flatMap_eq {f : α → List β} (hf : ∀ a a', R a a' → f a = f a') (h : OneOff R l l') : l.flatMap f = l'.flatMap f := by
  induction h with
  | here l h => rw [List.flatMap_cons, List.flatMap_cons, hf _ _ h]
  | later a _ ih => rw [List.flatMap_cons, List.flatMap_cons, ih]

/-! ## Sorting -/

section

variable {r : α → α → Prop} [DecidableRel r] (hr : ∀ a a', R a a' → ∀ b, (r a b ↔ r a' b) ∧ (r b a ↔ r b a'))

include hr

theorem orderedInsert_here {a a' : α} (h : R a a') (l : List α) :
    OneOff R (l.orderedInsert r a) (l.orderedInsert r a') := by
  induction l with
  | nil => exact .here [] h
  | cons b l ih =>
    rw [List.orderedInsert_cons, List.orderedInsert_cons]
    by_cases hab : r a b
    · rw [if_pos hab, if_pos ((hr a a' h b).1.1 hab)]
      exact .here (b :: l) h
    · rw [if_neg hab, if_neg fun h' => hab ((hr a a' h b).1.2 h')]
      exact .later b ih

theorem orderedInsert (b : α) (h : OneOff R l l') : OneOff R (l.orderedInsert r b) (l'.orderedInsert r b) := by
  induction h with
  | @here a a' l h =>
    rw [List.orderedInsert_cons, List.orderedInsert_cons]
    by_cases hba : r b a
    · rw [if_pos hba, if_pos ((hr a a' h b).2.1 hba)]
      exact .later b (.here l h)
    · rw [if_neg hba, if_neg fun h' => hba ((hr a a' h b).2.2 h')]
      exact .here _ h
  | @later a l l' h ih =>
    rw [List.orderedInsert_cons, List.orderedInsert_cons]
    split
    · exact .later b (.later a h)
    · exact .later a ih

/-- Elements that sort alike keep their place. -/
theorem insertionSort (h : OneOff R l l') : OneOff R (l.insertionSort r) (l'.insertionSort r) := by
  induction h with
  | here l h => exact orderedInsert_here hr h _
  | later a _ ih => exact ih.orderedInsert hr a

end

end OneOff

/-! ## Folding -/

/-- A step that loses neither the accumulator nor the element. -/
structure Cancels (step : β → α → β) : Prop where
  state : ∀ a, Function.Injective fun b => step b a
  word : ∀ b, Function.Injective (step b)

variable {step : β → α → β}

theorem Cancels.foldl_injective (hc : Cancels step) (l : List α) : Function.Injective fun b => l.foldl step b := by
  induction l with
  | nil => exact fun _ _ h => h
  | cons a l ih => exact fun b b' h => hc.state a (ih h)

theorem OneOff.foldl_ne (hc : Cancels step) (h : OneOff (· ≠ ·) l l') (b : β) : l.foldl step b ≠ l'.foldl step b := by
  induction h generalizing b with
  | here l h => exact fun heq => h (hc.word b (hc.foldl_injective l heq))
  | later a _ ih => exact ih (step b a)

end BareServer.Lib
