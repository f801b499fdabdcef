/-
Maps that tally: each key with how often it occurs, and no entry for a key that does not.
-/
import BareServer.Lib.Map
import Mathlib.Tactic

namespace BareServer.Lib

variable {α : Type} [DecidableEq α]

/-- The map holds exactly the numbers that are not zero. -/
def Tallies (m : Map α Nat) (n : α → Nat) : Prop := ∀ a, m.lookup a = if n a = 0 then none else some (n a)

namespace Tallies

variable {m : Map α Nat} {n : α → Nat} {a : α}

theorem empty : Tallies (∅ : Map α Nat) 0 := fun _ => rfl

theorem getD (h : Tallies m n) (a : α) : (m.lookup a).getD 0 = n a := by
  rw [h a]
  split
  · rename_i hzero
    exact hzero.symm
  · rfl

theorem same (h : Tallies m n) (hpos : 0 < n a) : Tallies (m.insert a (n a)) n := by
  intro b
  rw [Map.lookup_insert']
  split
  · rename_i hb
    rw [hb, if_neg hpos.ne']
  · exact h b

theorem up (h : Tallies m n) (a : α) : Tallies (m.insert a (n a + 1)) (Pi.single a 1 + n) := by
  intro b
  rw [Map.lookup_insert', Pi.add_apply]
  split
  · rename_i hb
    rw [hb, Pi.single_eq_same, if_neg (by omega), add_comm]
  · rename_i hb
    rw [Pi.single_eq_of_ne hb, zero_add]
    exact h b

/-- One less: the entry goes with the last one. -/
theorem down (h : Tallies m (Pi.single a 1 + n)) :
    Tallies (if n a = 0 then m.erase a else m.insert a (n a)) n := by
  intro b
  have hb := h b
  rw [Pi.add_apply] at hb
  by_cases hab : b = a
  · subst hab
    split
    · rename_i hzero
      exact AList.lookup_erase b m
    · rename_i hzero
      exact AList.lookup_insert m
  · rw [Pi.single_eq_of_ne hab, zero_add] at hb
    split
    · rw [AList.lookup_erase_ne hab]
      exact hb
    · rw [AList.lookup_insert_ne hab]
      exact hb

theorem lookup_up (h : Tallies m (Pi.single a 1 + n)) : m.lookup a = some (n a + 1) := by
  rw [h a, Pi.add_apply, Pi.single_eq_same, if_neg (by omega), add_comm]

end Tallies
end BareServer.Lib
