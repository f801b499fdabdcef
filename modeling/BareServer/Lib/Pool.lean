/-
Threads that take turns at something they share, and what they hold of it. A relation between the shared state and
all that is held is an invariant when every turn keeps it whatever the other threads hold.
-/
import Mathlib.Algebra.BigOperators.Group.List.Basic
import Mathlib.Logic.Relation

namespace BareServer.Lib

/-- Something shared, and the threads at it. -/
structure Pool (S T : Type) where
  shared : S
  threads : List T

namespace Pool

variable {S T M : Type} {rule : S → List T → S → List T → Prop} {p q : Pool S T}

/-- One turn by a rule, anywhere in the pool: a thread takes it, or none when it comes from outside, and leaves the
threads that follow it. -/
inductive Turn (rule : S → List T → S → List T → Prop) : Pool S T → Pool S T → Prop where
  | mk {s s' : S} {ts ts' : List T} (before after : List T) (h : rule s ts s' ts') :
      Turn rule ⟨s, before ++ ts ++ after⟩ ⟨s', before ++ ts' ++ after⟩

section Held

variable [AddCommMonoid M] {hold : T → M} {R : S → M → Prop}

def held (hold : T → M) (p : Pool S T) : M := (p.threads.map hold).sum

/-- A rule keeps a relation between the shared state and what is held, whatever the threads beside it hold. -/
def Keeps (rule : S → List T → S → List T → Prop) (hold : T → M) (R : S → M → Prop) : Prop :=
  ∀ {s ts s' ts'}, rule s ts s' ts' → ∀ others, R s ((ts.map hold).sum + others) → R s' ((ts'.map hold).sum + others)

theorem held_split (s : S) (before ts after : List T) :
    held hold ⟨s, before ++ ts ++ after⟩ = (ts.map hold).sum + ((before.map hold).sum + (after.map hold).sum) := by
  simp only [held, List.map_append, List.sum_append]
  rw [add_comm (before.map hold).sum, add_assoc]

/-- The step lemma: what every turn keeps is kept. -/
theorem Keeps.turn (hk : Keeps rule hold R) (h : Turn rule p q) (hp : R p.shared (p.held hold)) :
    R q.shared (q.held hold) := by
  cases h with
  | mk before after h =>
    rw [held_split] at hp ⊢
    exact hk h _ hp

/-- The run lemma. -/
theorem Keeps.run (hk : Keeps rule hold R) (h : Relation.ReflTransGen (Turn rule) p q)
    (hp : R p.shared (p.held hold)) : R q.shared (q.held hold) := by
  induction h with
  | refl => exact hp
  | tail _ hturn ih => exact hk.turn hturn ih

end Held

/-- What a rule keeps of the threads it touches holds of every thread. -/
theorem forall_run {P : T → Prop} (hk : ∀ {s ts s' ts'}, rule s ts s' ts' → (∀ t ∈ ts, P t) → ∀ t ∈ ts', P t)
    (h : Relation.ReflTransGen (Turn rule) p q) (hp : ∀ t ∈ p.threads, P t) : ∀ t ∈ q.threads, P t := by
  induction h with
  | refl => exact hp
  | tail _ hturn ih =>
    cases hturn with
    | mk before after h =>
      simp only [List.forall_mem_append] at ih ⊢
      exact ⟨⟨ih.1.1, hk h ih.1.2⟩, ih.2⟩

end Pool
end BareServer.Lib
