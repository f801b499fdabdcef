/-
Texts that are read as values, and a writer of the values. Where a written value is read back, rewriting
brings all spellings of a value to one of them, which it leaves as it is, and those of two values to two.
-/
import Mathlib.Logic.ExistsUnique
import Mathlib.Data.Option.Basic

namespace BareServer.Lib

variable {α β : Type*} {read : α → Option β} {write : β → α} {a a' : α} {b b' : β}

/-- What is written of a value that was read is read as that value. -/
def ReadsBack (read : α → Option β) (write : β → α) : Prop := ∀ ⦃a b⦄, read a = some b → read (write b) = some b

/-- A text, read and written again. -/
def respell (read : α → Option β) (write : β → α) (a : α) : Option α := (read a).map write

theorem respell_read (ha : read a = some b) : respell read write a = some (write b) := by rw [respell, ha, Option.map_some]

namespace ReadsBack

/-- Rewriting leaves what it wrote as it is. -/
theorem respell_write (h : ReadsBack read write) (ha : read a = some b) : respell read write (write b) = some (write b) :=
  respell_read (h ha)

/-- Two texts are rewritten alike exactly when they are read alike. -/
theorem respell_eq_iff (h : ReadsBack read write) (ha : read a = some b) (ha' : read a' = some b') :
    respell read write a = respell read write a' ↔ b = b' := by
  rw [respell_read ha, respell_read ha', Option.some.injEq]
  constructor
  · intro heq
    have hread := h ha
    rw [heq, h ha'] at hread
    exact (Option.some.inj hread).symm
  · exact congrArg write

/-- One spelling of a value is left as it is: the one that is written. -/
theorem existsUnique_fixed (h : ReadsBack read write) (ha : read a = some b) :
    ∃! c, read c = some b ∧ respell read write c = some c := by
  refine ⟨write b, ⟨h ha, h.respell_write ha⟩, ?_⟩
  rintro c ⟨hc, hfixed⟩
  rw [respell_read hc] at hfixed
  exact (Option.some.inj hfixed).symm

end ReadsBack
end BareServer.Lib
