/-
Words that overlap themselves: what satisfies `x ++ b = c ++ x` is a prefix of `c` repeated, and a
solution longer than `c` has a shorter one inside it.
-/
import Mathlib.Data.List.Basic
import Mathlib.Data.List.Infix
import Mathlib.Tactic

namespace BareServer.Lib

variable {α : Type}

/-- The first `n` letters of `c` repeated. -/
def cyclic (c : List α) (n : Nat) : List α := (List.replicate n c).flatten.take n

/-- A prefix of itself behind `c` is a prefix of `c` repeated often enough. -/
theorem prefix_replicate {c x : List α} (h : x <+: c ++ x) {k : Nat} (hk : x.length ≤ k * c.length) :
    x <+: (List.replicate k c).flatten := by
  induction k generalizing x with
  | zero =>
    have : x = [] := List.length_eq_zero_iff.1 (by omega)
    rw [this]
    exact List.nil_prefix
  | succ k ih =>
    rw [List.replicate_succ, List.flatten_cons]
    by_cases hle : x.length ≤ c.length
    · -- within the first copy
      have hx := List.prefix_of_prefix_length_le h (List.prefix_append c x) hle
      exact hx.trans (List.prefix_append _ _)
    · -- the first copy is split off, and what is left overlaps itself too
      obtain ⟨y, rfl⟩ := List.prefix_of_prefix_length_le (List.prefix_append c x) h (by omega)
      have hy : y <+: c ++ y := (List.prefix_append_right_inj c).1 h
      have hlen : y.length ≤ k * c.length := by
        rw [List.length_append, Nat.succ_mul] at hk
        omega
      exact (List.prefix_append_right_inj c).2 (ih hy hlen)

theorem eq_cyclic {c x : List α} (hc : c ≠ []) (h : x <+: c ++ x) : x = cyclic c x.length := by
  have hpos : 0 < c.length := List.length_pos_iff.2 hc
  have hp := prefix_replicate h (Nat.le_mul_of_pos_right x.length hpos)
  exact List.prefix_iff_eq_take.1 hp

/-- A long solution of `x ++ b = c ++ x` holds a shorter one, its own prefix. -/
theorem descend {b c x : List α} (h : x ++ b = c ++ x) (hlen : c.length ≤ x.length) :
    ∃ y, x = c ++ y ∧ y <+: x ∧ y ++ b = c ++ y := by
  have hx : x <+: c ++ x := ⟨b, h⟩
  obtain ⟨y, rfl⟩ := List.prefix_of_prefix_length_le (List.prefix_append c x) hx hlen
  rw [List.append_assoc] at h
  exact ⟨y, rfl, (List.prefix_append_right_inj c).1 hx, List.append_cancel_left h⟩

end BareServer.Lib
