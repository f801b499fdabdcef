/-
A program that publishes, carried out on a shared state where others move as well. What it publishes is realised when
its accesses can be taken one after the other whatever the others do in between, and what the state shows is at every
moment what was published last. An assertion that the others cannot break is carried from access to access.
-/
import BareServer.Lib.Observe
import Mathlib.Logic.Relation

namespace BareServer.Lib

open Relation

/-- A shared state: the accesses of one program, the moves of others, and what a state shows. -/
structure Arena (S V : Type) where
  mine : S → S → Prop
  others : S → S → Prop
  shown : V → S → Prop

namespace Arena

variable {S V : Type} {A : Arena S V} {P Q R : V → S → Prop} {v w : V}

/-- While `v` shows, the publications `vs` are realised from a state on: against any moves of the others, there is
always a next access, and only the access that publishes changes what shows. -/
inductive Realises (A : Arena S V) : V → List V → S → Prop
  | done {v : V} {s : S} (h : ∀ s', ReflTransGen A.others s s' → A.shown v s') : Realises A v [] s
  /-- An access that does not show. -/
  | quiet {v : V} {vs : List V} {s : S} (next : S → S)
      (h : ∀ s', ReflTransGen A.others s s' → A.shown v s' ∧ A.mine s' (next s'))
      (hrest : ∀ s', ReflTransGen A.others s s' → Realises A v vs (next s')) : Realises A v vs s
  /-- The access that publishes. -/
  | turn {v v' : V} {vs : List V} {s : S} (next : S → S)
      (h : ∀ s', ReflTransGen A.others s s' → A.shown v s' ∧ A.mine s' (next s'))
      (hrest : ∀ s', ReflTransGen A.others s s' → Realises A v' vs (next s')) : Realises A v (v' :: vs) s
  /-- What shows already is published once more. -/
  | again {v : V} {vs : List V} {s : S} (h : Realises A v vs s) : Realises A v (v :: vs) s

/-- An assertion that the others cannot break, and that says what shows. -/
structure Stable (A : Arena S V) (P : V → S → Prop) : Prop where
  shown : ∀ v s, P v s → A.shown v s
  kept : ∀ v s s', P v s → A.others s s' → P v s'

namespace Stable

theorem run (hP : A.Stable P) {s s' : S} (hs : P v s) (h : ReflTransGen A.others s s') : P v s' := by
  induction h with
  | refl => exact hs
  | tail _ hstep ih => exact hP.kept _ _ _ ih hstep

theorem done (hP : A.Stable P) {s : S} (hs : P v s) : A.Realises v [] s :=
  .done fun s' h => hP.shown v s' (hP.run hs h)

/-- The next access, wherever the others have gone. -/
theorem next (hP : A.Stable P) (h : ∀ v s, P v s → ∃ s', A.mine s s' ∧ R v s') {s : S} (hs : P v s) :
    ∃ next : S → S, ∀ s', ReflTransGen A.others s s' → (A.shown v s' ∧ A.mine s' (next s')) ∧ R v (next s') := by
  classical
  have hnext : ∀ s', ∃ s'', ReflTransGen A.others s s' → (A.shown v s' ∧ A.mine s' s'') ∧ R v s'' := by
    intro s'
    by_cases hs' : ReflTransGen A.others s s'
    · obtain ⟨s'', hmine, hR⟩ := h v s' (hP.run hs hs')
      exact ⟨s'', fun _ => ⟨⟨hP.shown v s' (hP.run hs hs'), hmine⟩, hR⟩⟩
    · exact ⟨s', fun h => absurd h hs'⟩
  choose next hnext using hnext
  exact ⟨next, hnext⟩

end Stable

/-! ## Moves -/

/-- From one assertion the program gets to another by accesses that do not show. -/
def Moves (A : Arena S V) (P Q : V → S → Prop) : Prop :=
  ∀ v vs s, P v s → (∀ s', Q v s' → A.Realises v vs s') → A.Realises v vs s

/-- From one assertion the program gets to another by accesses the last of which publishes `w`. -/
def Turns (A : Arena S V) (w : V) (P : V → S → Prop) (Q : S → Prop) : Prop :=
  ∀ v vs s, P v s → (∀ s', Q s' → A.Realises w vs s') → A.Realises v (w :: vs) s

theorem Moves.imp (h : ∀ v s, P v s → Q v s) : A.Moves P Q := fun v _ s hs hQ => hQ s (h v s hs)

theorem Moves.trans (h : A.Moves P Q) (h' : A.Moves Q R) : A.Moves P R :=
  fun v vs s hs hR => h v vs s hs fun s' hs' => h' v vs s' hs' hR

theorem Moves.step (hP : A.Stable P) (h : ∀ v s, P v s → ∃ s', A.mine s s' ∧ Q v s') : A.Moves P Q := by
  intro v vs s hs hQ
  obtain ⟨next, hnext⟩ := hP.next h hs
  exact .quiet next (fun s' hs' => (hnext s' hs').1) fun s' hs' => hQ _ (hnext s' hs').2

theorem Moves.turns {Q : S → Prop} (h : A.Moves P R) (h' : A.Turns w R Q) : A.Turns w P Q :=
  fun v vs s hs hQ => h v (w :: vs) s hs fun s' hs' => h' v vs s' hs' hQ

theorem Turns.step {Q : S → Prop} (hP : A.Stable P) (h : ∀ v s, P v s → ∃ s', A.mine s s' ∧ Q s') : A.Turns w P Q := by
  intro v vs s hs hQ
  obtain ⟨next, hnext⟩ := hP.next h hs
  exact .turn next (fun s' hs' => (hnext s' hs').1) fun s' hs' => hQ _ (hnext s' hs').2

end Arena

/-! ## Programs -/

namespace Obs

variable {W E α β S V : Type} {h : Nat → W}

/-- A sequence runs its first part, and then its second from where that ended. -/
theorem run_bind (h : Nat → W) (p : Obs W E α) (f : α → Obs W E β) (i : Nat) :
    (p >>= f).run h i =
      ⟨((f (p.run h i).value).run h (p.run h i).next).value, ((f (p.run h i).value).run h (p.run h i).next).next,
        (p.run h i).trace ++ ((f (p.run h i).value).run h (p.run h i).next).trace⟩ := by
  show (p.bind f).run h i = _
  induction p generalizing i with
  | ret a => rfl
  | look k ih => exact ih (h i) (i + 1)
  | emit e k ih =>
    simp only [Obs.bind, run, ih (i + 1), List.cons_append]

/-- From one assertion a program that runs from a moment on gets to another, publishing what it publishes. -/
def Drives (A : Arena S V) (obs : E → V) (h : Nat → W) (p : Obs W E α) (i : Nat) (P : V → S → Prop)
    (Q : α → Nat → V → S → Prop) : Prop :=
  ∀ v vs s, P v s → (∀ v' s', Q (p.run h i).value (p.run h i).next v' s' → A.Realises v' vs s') →
    A.Realises v ((p.run h i).trace.map (fun e => obs e.2) ++ vs) s

namespace Drives

variable {A : Arena S V} {obs : E → V} {i : Nat} {P : V → S → Prop} {Q : α → Nat → V → S → Prop} {p : Obs W E α}

theorem ret {a : α} (h' : ∀ v s, P v s → Q a i v s) : Drives A obs h (pure a) i P Q := by
  intro v vs s hs hQ
  exact hQ v s (h' v s hs)

theorem bind {f : α → Obs W E β} {R : β → Nat → V → S → Prop} (hp : Drives A obs h p i P Q)
    (hf : ∀ a j, a = (p.run h i).value → j = (p.run h i).next → Drives A obs h (f a) j (Q a j) R) :
    Drives A obs h (p >>= f) i P R := by
  intro v vs s hs hR
  rw [run_bind] at hR ⊢
  simp only [List.map_append, List.append_assoc] at hR ⊢
  exact hp v _ s hs fun v' s' hs' => hf _ _ rfl rfl v' vs s' hs' hR

/-- Reading the world changes nothing that is shared. -/
theorem view {f : W → α} {k : α → Obs W E β} {R : β → Nat → V → S → Prop}
    (hk : Drives A obs h (k (f (h i))) (i + 1) P R) : Drives A obs h (Obs.view f >>= k) i P R := by
  intro v vs s hs hR
  rw [run_bind] at hR ⊢
  exact hk v vs s hs hR

theorem post {Q' : α → Nat → V → S → Prop} (hp : Drives A obs h p i P Q) (hQ : ∀ a j v s, Q a j v s → Q' a j v s) :
    Drives A obs h p i P Q' :=
  fun v vs s hs hQ' => hp v vs s hs fun v' s' hs' => hQ' v' s' (hQ _ _ v' s' hs')

theorem fact {F : Prop} (hp : F → Drives A obs h p i P Q) : Drives A obs h p i (fun v s => P v s ∧ F) Q :=
  fun v vs s ⟨hs, hF⟩ => hp hF v vs s hs

theorem exists_pre {ι : Type} {P : ι → V → S → Prop} (hp : ∀ x, Drives A obs h p i (P x) Q) :
    Drives A obs h p i (fun v s => ∃ x, P x v s) Q :=
  fun v vs s ⟨x, hs⟩ => hp x v vs s hs

theorem moves {R : V → S → Prop} (hm : A.Moves P R) (hp : Drives A obs h p i R Q) : Drives A obs h p i P Q :=
  fun v _ s hs hQ => hm v _ s hs fun s' hs' => hp v _ s' hs' hQ

theorem silent {F : α → Nat → Prop} (hp : Holds h (fun _ _ => False) p i F) :
    Drives A obs h p i P fun a j v s => F a j ∧ P v s := by
  intro v vs s hs hQ
  obtain ⟨a, j, hrun, hF, -⟩ := hp.run_eq
  rw [hrun] at hQ ⊢
  exact hQ v s ⟨hF, hs⟩

/-- What is published shows already. -/
theorem again {e : E} {k : Unit → Obs W E β} {R : β → Nat → V → S → Prop} (hv : ∀ v s, P v s → v = obs e)
    (hk : Drives A obs h (k ()) (i + 1) P R) : Drives A obs h (publish e >>= k) i P R := by
  intro v vs s hs hR
  rw [run_bind] at hR ⊢
  cases hv v s hs
  exact .again (hk _ vs s hs hR)

/-- What is published shows from an access on. -/
theorem turn {e : E} {k : Unit → Obs W E β} {Q : S → Prop} {R : β → Nat → V → S → Prop} (ht : A.Turns (obs e) P Q)
    (hk : Drives A obs h (k ()) (i + 1) (fun v s => v = obs e ∧ Q s) R) : Drives A obs h (publish e >>= k) i P R := by
  intro v vs s hs hR
  rw [run_bind] at hR ⊢
  exact ht v _ s hs fun s' hs' => hk (obs e) vs s' ⟨rfl, hs'⟩ hR

/-- The loop rule: an assertion about the elements done so far that one round keeps. -/
theorem fold {f : β → α → Obs W E β} {P : List α → β → V → S → Prop} {as : List α}
    (hf : ∀ done a rest, as = done ++ a :: rest → ∀ b j, Drives A obs h (f b a) j (P done b) fun b' _ => P (done ++ [a]) b')
    (b : β) (i : Nat) : Drives A obs h (Obs.fold f b as) i (P [] b) fun b' _ => P as b' := by
  have hrest : ∀ (todo done : List α) (b : β) (j : Nat), as = done ++ todo →
      Drives A obs h (Obs.fold f b todo) j (P done b) fun b' _ => P as b' := by
    intro todo
    induction todo with
    | nil =>
      intro done b j has
      rw [List.append_nil] at has
      subst has
      exact ret fun _ _ hs => hs
    | cons a todo ih =>
      intro done b j has
      exact (hf done a todo has b j).bind fun b' k _ _ => ih (done ++ [a]) b' k (by rw [has, List.append_assoc]; rfl)
  exact hrest as [] b i rfl

/-- The run rule. -/
theorem repeatN {body : α → Obs W E α} {P : α → V → S → Prop}
    (step : ∀ a i, Drives A obs h (body a) i (P a) fun a' _ => P a') : ∀ (n : Nat) (a : α) (i : Nat),
    Drives A obs h (Obs.repeatN body n a) i (P a) fun a' _ => P a'
  | 0, _, _ => ret fun _ _ hs => hs
  | n + 1, a, i => (step a i).bind fun a' j _ _ => repeatN step n a' j

/-- A program that gets to a stable assertion: all that it publishes is realised. -/
theorem realises (hp : Drives A obs h p i P Q) (hQ : ∀ a j, A.Stable (Q a j)) {v : V} {s : S} (hs : P v s) :
    A.Realises v ((p.run h i).trace.map fun e => obs e.2) s := by
  have hrun := hp v [] s hs fun v' s' hs' => (hQ _ _).done hs'
  rwa [List.append_nil] at hrun

end Drives
end Obs
end BareServer.Lib
