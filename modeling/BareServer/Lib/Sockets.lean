/-
Moving a pair of sockets to wanted addresses, make-before-break: each is bound at its new address
before it leaves the old one, and the primary one goes first. Which addresses can be bound is a parameter.
-/
import Mathlib.Tactic

namespace BareServer.Lib

/-- Where a primary and an optional secondary socket listen. -/
structure Pair (A : Type) where
  primary : A
  secondary : Option A

namespace Pair

variable {A : Type} {ok : Pair A → A → Prop} {want s t : Pair A} {settled : Bool}

def held (s : Pair A) : List A := s.primary :: s.secondary.toList

theorem mem_held {a : A} : a ∈ s.held ↔ a = s.primary ∨ s.secondary = some a := by
  simp [held]

/-- One attempt to bring `s` to `want`: the sockets after it, and whether it settled. A bind is asked
of the sockets as they are at that point. -/
inductive Attempt (ok : Pair A → A → Prop) (want s : Pair A) : Pair A → Bool → Prop where
  | refused (hp : s.primary ≠ want.primary) (hno : ¬ ok s want.primary) : Attempt ok want s s false
  | halfway (b : A) (hp : s.primary = want.primary ∨ ok s want.primary) (hb : want.secondary = some b)
      (hs : s.secondary ≠ some b) (hno : ¬ ok ⟨want.primary, s.secondary⟩ b) :
      Attempt ok want s ⟨want.primary, s.secondary⟩ false
  | done (hp : s.primary = want.primary ∨ ok s want.primary)
      (hs : ∀ b, want.secondary = some b → s.secondary = some b ∨ ok ⟨want.primary, s.secondary⟩ b) :
      Attempt ok want s want true

/-- An attempt asks for binds at two points only. -/
theorem Attempt.congr {ok' : Pair A → A → Prop} (h : Attempt ok want s t settled) (first : ∀ a, ok s a ↔ ok' s a)
    (second : s.primary = want.primary ∨ ok s want.primary →
      ∀ a, ok ⟨want.primary, s.secondary⟩ a ↔ ok' ⟨want.primary, s.secondary⟩ a) :
    Attempt ok' want s t settled := by
  cases h with
  | refused hp hno => exact .refused hp (mt (first _).2 hno)
  | halfway b hp hb hs hno => exact .halfway b (hp.imp_right (first _).1) hb hs (mt (second hp b).2 hno)
  | done hp hs => exact .done (hp.imp_right (first _).1) fun b hb => (hs b hb).imp_right (second hp b).1

/-! ## Exclusive addresses -/

/-- An address can be bound when nobody holds it: no foreign socket, and none of the pair. -/
def Free (foreign : A → Prop) (s : Pair A) (a : A) : Prop := ¬ foreign a ∧ a ∉ s.held

/-- The primary has to move to the address of the secondary. -/
def Blocked (want s : Pair A) : Prop := s.primary ≠ want.primary ∧ s.secondary = some want.primary

variable {foreign : A → Prop}

/-- Towards addresses that no foreign socket holds, an attempt settles at once, or is blocked and moves
nothing. -/
theorem Attempt.free (hx : ¬ foreign want.primary) (hy : ∀ b, want.secondary = some b → ¬ foreign b ∧ b ≠ want.primary)
    (h : Attempt (Free foreign) want s t settled) :
    Blocked want s ∧ t = s ∧ settled = false ∨ ¬ Blocked want s ∧ t = want ∧ settled = true := by
  -- only the secondary socket can hold the address that the primary one wants
  have hprimary : s.primary = want.primary ∨ Free foreign s want.primary ↔ ¬ Blocked want s := by
    unfold Free Blocked
    rw [mem_held]
    constructor
    · rintro (he | ⟨-, hfree⟩) ⟨hne, hb⟩
      · exact hne he
      · exact hfree (.inr hb)
    · intro hb
      by_cases he : s.primary = want.primary
      · exact .inl he
      · refine .inr ⟨hx, ?_⟩
        rintro (he' | hs)
        · exact he he'.symm
        · exact hb ⟨he, hs⟩
  cases h with
  | refused hp hno =>
    have hblocked : Blocked want s := by
      by_contra hb
      exact (hprimary.2 hb).elim hp hno
    exact .inl ⟨hblocked, rfl, rfl⟩
  | halfway b hp hb hs hno =>
    -- the wanted secondary address is free once the primary has moved
    refine absurd ⟨(hy b hb).1, ?_⟩ hno
    rw [mem_held]
    rintro (he | hs')
    · exact (hy b hb).2 he
    · exact hs hs'
  | done hp hs => exact .inr ⟨hprimary.1 hp, rfl, rfl⟩

end Pair
end BareServer.Lib
