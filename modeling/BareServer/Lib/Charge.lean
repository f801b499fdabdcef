/-
Charges against one shared ceiling. A charge may ask for room on top of what has been charged so far,
and is then refused when the room goes beyond the ceiling; what it keeps is added to the running total.
What a charge asks for need not be what it keeps, so whether a sequence passes may depend on its order.
-/
import Mathlib.Tactic

namespace BareServer.Lib

/-- The room a charge asks for, when it is tested at all, and what it adds to the total. -/
structure Charge where
  asks : Option Nat
  keeps : Nat

namespace Charge

def kept (cs : List Charge) : Nat := (cs.map keeps).sum

@[simp] theorem kept_nil : kept [] = 0 := rfl

@[simp] theorem kept_cons (c : Charge) (cs : List Charge) : kept (c :: cs) = c.keeps + kept cs := by
  simp [kept]

@[simp] theorem kept_append (cs ds : List Charge) : kept (cs ++ ds) = kept cs + kept ds := by
  simp [kept]

theorem kept_flatMap {α : Type} (g : α → List Charge) (l : List α) :
    kept (l.flatMap g) = (l.map fun x => kept (g x)).sum := by
  induction l with
  | nil => rfl
  | cons x l ih => rw [List.flatMap_cons, kept_append, ih, List.map_cons, List.sum_cons]

def Fits (max total : Nat) (c : Charge) : Prop := ∀ a, c.asks = some a → total + a ≤ max

instance (max total : Nat) (c : Charge) : Decidable (c.Fits max total) :=
  match h : c.asks with
  | none => .isTrue fun a ha => by rw [h] at ha; cases ha
  | some a => decidable_of_iff (total + a ≤ max) ⟨fun hle b hb => by rw [h] at hb; cases hb; exact hle,
      fun hfit => hfit a h⟩

/-- Every charge of a sequence has the room it asks for, each on top of those before it. -/
def Admits (max : Nat) : Nat → List Charge → Prop
  | _, [] => True
  | total, c :: cs => c.Fits max total ∧ Admits max (total + c.keeps) cs

instance Admits.decide (max : Nat) : ∀ (total : Nat) (cs : List Charge), Decidable (Admits max total cs)
  | _, [] => .isTrue trivial
  | total, c :: cs => @instDecidableAnd _ _ _ (Admits.decide max (total + c.keeps) cs)

theorem admits_append {max : Nat} : ∀ {total : Nat} (cs : List Charge) {ds : List Charge},
    Admits max total (cs ++ ds) ↔ Admits max total cs ∧ Admits max (total + kept cs) ds
  | _, [], _ => by simp [Admits]
  | total, c :: cs, ds => by
    simp only [List.cons_append, Admits, kept_cons, admits_append cs, and_assoc, Nat.add_assoc]

/-- A sequence in parts: every part passes on top of those before it. -/
theorem admits_flatMap {α : Type} (g : α → List Charge) {max : Nat} : ∀ {total : Nat} (l : List α),
    Admits max total (l.flatMap g) ↔
      ∀ pre x post, l = pre ++ x :: post → Admits max (total + kept (pre.flatMap g)) (g x)
  | total, [] => by simp [Admits]
  | total, x :: l => by
    rw [List.flatMap_cons, admits_append, admits_flatMap g l]
    constructor
    · rintro ⟨hx, hl⟩ pre y post heq
      rcases List.cons_eq_append_iff.1 heq with ⟨rfl, hy⟩ | ⟨pre', rfl, hpre⟩
      · obtain ⟨rfl, rfl⟩ := List.cons.inj hy
        simpa using hx
      · have := hl pre' y post hpre
        rwa [List.flatMap_cons, kept_append, ← Nat.add_assoc]
    · intro hall
      refine ⟨by simpa using hall [] x l rfl, fun pre y post heq => ?_⟩
      have := hall (x :: pre) y post (by rw [heq]; rfl)
      rwa [List.flatMap_cons, kept_append, ← Nat.add_assoc] at this

theorem admits_iff {max total : Nat} (cs : List Charge) :
    Admits max total cs ↔ ∀ pre c post, cs = pre ++ c :: post → c.Fits max (total + kept pre) := by
  have := @admits_flatMap Charge (fun c => [c]) max total cs
  simpa [Admits] using this

/-! ## What a ceiling bounds -/

/-- A charge that asks for all it keeps. -/
def Covered (c : Charge) : Prop := c.keeps ≤ c.asks.getD 0

/-- A charge that asks for exactly what it keeps. -/
def Plain (c : Charge) : Prop := c.asks = some c.keeps

theorem plain_mk (n : Nat) : Plain ⟨some n, n⟩ := rfl

def Exceeding (c : Charge) : Prop := ∃ a, c.asks = some a ∧ c.keeps < a

def Untested (c : Charge) : Prop := c.asks = none

theorem Covered.fits_keeps {c : Charge} (hc : c.Covered) {max total : Nat} (ht : total ≤ max) (hf : c.Fits max total) :
    total + c.keeps ≤ max := by
  unfold Covered at hc
  cases ha : c.asks with
  | none => simp [ha] at hc; omega
  | some a =>
    have := hf a ha
    simp [ha] at hc
    omega

/-- Where every charge asks for all it keeps, the ceiling bounds the total. -/
theorem Admits.bounded {max : Nat} : ∀ {total : Nat} {cs : List Charge}, Admits max total cs → total ≤ max →
    (∀ c ∈ cs, c.Covered) → total + kept cs ≤ max
  | _, [], _, ht, _ => by simpa using ht
  | total, c :: cs, h, ht, hc => by
    have hhead := (hc c List.mem_cons_self).fits_keeps ht h.1
    have := h.2.bounded hhead fun d hd => hc d (List.mem_cons_of_mem _ hd)
    rw [kept_cons]
    omega

/-- Where the total stays below the ceiling, only a charge that asks for more than it keeps can be refused. -/
theorem admits_iff_exceeding {max total : Nat} {cs : List Charge} (hle : total + kept cs ≤ max) :
    Admits max total cs ↔
      ∀ pre c post, cs = pre ++ c :: post → c.Exceeding → c.Fits max (total + kept pre) := by
  rw [admits_iff]
  refine ⟨fun h pre c post heq _ => h pre c post heq, fun h pre c post heq => ?_⟩
  by_cases hex : c.Exceeding
  · exact h pre c post heq hex
  · intro a ha
    have hak : a ≤ c.keeps := by
      by_contra hlt
      exact hex ⟨a, ha, by omega⟩
    rw [heq, kept_append, kept_cons] at hle
    omega

/-- The most that a charge which asks for more than it keeps asks for, on top of those before it. -/
def asked : Nat → List Charge → Nat
  | _, [] => 0
  | total, c :: cs => max (if c.keeps < c.asks.getD 0 then total + c.asks.getD 0 else 0) (asked (total + c.keeps) cs)

/-- So below the ceiling that one amount decides. -/
theorem admits_iff_asked {ceiling : Nat} : ∀ {total : Nat} {cs : List Charge}, total + kept cs ≤ ceiling →
    (Admits ceiling total cs ↔ asked total cs ≤ ceiling)
  | _, [], _ => iff_of_true trivial (Nat.zero_le _)
  | total, c :: cs, hle => by
    rw [kept_cons, ← Nat.add_assoc] at hle
    rw [Admits, asked, max_le_iff, admits_iff_asked hle]
    refine and_congr_left fun _ => ?_
    unfold Fits
    cases c.asks with
    | none => simp
    | some a =>
      simp only [Option.some.injEq, forall_eq', Option.getD_some]
      split <;> omega

theorem Untested.fits {c : Charge} (hc : c.Untested) (max total : Nat) : c.Fits max total := by
  intro a ha
  rw [hc] at ha
  cases ha

theorem admits_untested {max : Nat} : ∀ {total : Nat} {cs : List Charge}, (∀ c ∈ cs, c.Untested) → Admits max total cs
  | _, [], _ => trivial
  | _, c :: _, hc =>
    ⟨(hc c List.mem_cons_self).fits _ _, admits_untested fun d hd => hc d (List.mem_cons_of_mem _ hd)⟩

/-- Where a charge that is tested asks for exactly what it keeps, the last test is the one that decides: what comes
after it is never weighed. -/
theorem admits_last {max total : Nat} {cs us : List Charge} {c : Charge} (hcs : ∀ d ∈ cs, d.Untested ∨ d.Plain)
    (hc : c.Plain) (hus : ∀ d ∈ us, d.Untested) :
    Admits max total (cs ++ c :: us) ↔ total + kept cs + c.keeps ≤ max := by
  constructor
  · intro h
    exact ((admits_append cs).1 h).2.1 c.keeps hc
  · intro hle
    refine (admits_append cs).2 ⟨(admits_iff cs).2 fun pre d post heq => ?_, ?_, admits_untested hus⟩
    · have hd : d.Untested ∨ d.Plain := hcs d (by rw [heq]; simp)
      rcases hd with hd | hd
      · exact hd.fits _ _
      · intro a ha
        rw [hd, Option.some.injEq] at ha
        rw [heq, kept_append, kept_cons] at hle
        omega
    · intro a ha
      rw [hc, Option.some.injEq] at ha
      omega

/-! ## Every order -/

theorem kept_perm {cs ds : List Charge} (h : cs.Perm ds) : kept cs = kept ds := (h.map keeps).sum_eq

theorem Fits.mono {c : Charge} {max total total' : Nat} (h : c.Fits max total') (hle : total ≤ total') :
    c.Fits max total := by
  intro a ha
  have := h a ha
  omega

/-- Each charge has the room it asks for on top of all others. -/
def Ample (max total : Nat) (cs : List Charge) : Prop :=
  ∀ c rest, cs.Perm (c :: rest) → c.Fits max (total + kept rest)

/-- Then every order passes. -/
theorem Ample.admits {max total : Nat} {cs ds : List Charge} (h : Ample max total cs) (hp : cs.Perm ds) :
    Admits max total ds := by
  refine (admits_iff ds).2 fun pre c post heq => ?_
  have hfit := h c (pre ++ post) ((heq ▸ hp).trans List.perm_middle)
  rw [kept_append] at hfit
  exact hfit.mono (by omega)

theorem Admits.last {max total : Nat} {cs : List Charge} {c : Charge} (h : Admits max total (cs ++ [c])) :
    c.Fits max (total + kept cs) := ((admits_append cs).1 h).2.1

end Charge
end BareServer.Lib
