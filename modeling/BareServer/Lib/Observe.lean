/-
Programs that look at a world while it changes. A program reads the world at successive moments of
a history it does not control, and publishes states; running it against a history gives its value,
the moment it ended at and what it published when.

A property of a program is a triple: an invariant that everything it publishes satisfies, and a
postcondition on its value and its last moment, for one history and one first moment.
-/
import Mathlib.Tactic

namespace BareServer.Lib

/-- A program over worlds `W` that publishes values of `E` and returns one of `α`. -/
inductive Obs (W E α : Type) where
  | ret (a : α)
  | look (k : W → Obs W E α)
  | emit (e : E) (k : Obs W E α)

/-- What a run gives: its value, the moment after its last step, and what it published. -/
structure Outcome (E α : Type) where
  value : α
  next : Nat
  trace : List (Nat × E)

namespace Obs

variable {W E α β γ : Type}

/-! ## Programs -/

protected def bind : Obs W E α → (α → Obs W E β) → Obs W E β
  | ret a, f => f a
  | look k, f => look fun w => (k w).bind f
  | emit e k, f => emit e (k.bind f)

instance : Monad (Obs W E) where
  pure := ret
  bind := Obs.bind

def view (f : W → α) : Obs W E α := look fun w => ret (f w)

def publish (e : E) : Obs W E Unit := emit e (ret ())

/-- Run a program against a history: every step takes one moment. -/
def run (h : Nat → W) : Obs W E α → Nat → Outcome E α
  | ret a, i => ⟨a, i, []⟩
  | look k, i => (k (h i)).run h (i + 1)
  | emit e k, i =>
    let o := k.run h (i + 1)
    { o with trace := (i, e) :: o.trace }

def each (f : α → Obs W E β) : List α → Obs W E (List β)
  | [] => ret []
  | a :: as => do
    let b ← f a
    let bs ← each f as
    pure (b :: bs)

/-- Thread a value through a program for each element, in order. -/
def fold (f : β → α → Obs W E β) : β → List α → Obs W E β
  | b, [] => ret b
  | b, a :: as => do
    let b' ← f b a
    fold f b' as

/-! ## Triples -/

/-- From moment `i`, everything published satisfies `I` and the value and last moment satisfy `Q`. -/
def Holds (h : Nat → W) (I : Nat → E → Prop) (p : Obs W E α) (i : Nat) (Q : α → Nat → Prop) : Prop :=
  (∀ e ∈ (p.run h i).trace, I e.1 e.2) ∧ Q (p.run h i).value (p.run h i).next

section

variable {h : Nat → W} {I J : Nat → E → Prop} {i : Nat} {Q R : α → Nat → Prop}

@[simp] theorem holds_pure {a : α} : Holds h I (pure a : Obs W E α) i Q ↔ Q a i := by
  simp [Holds, pure, run]

@[simp] theorem holds_look {k : W → Obs W E α} : Holds h I (look k) i Q ↔ Holds h I (k (h i)) (i + 1) Q := Iff.rfl

@[simp] theorem holds_emit {e : E} {k : Obs W E α} :
    Holds h I (emit e k) i Q ↔ I i e ∧ Holds h I k (i + 1) Q := by
  simp [Holds, run, and_assoc]

@[simp] theorem holds_view {f : W → α} : Holds h I (view f : Obs W E α) i Q ↔ Q (f (h i)) (i + 1) := by
  simp [view, Holds, run]

@[simp] theorem holds_publish {e : E} {Q : Unit → Nat → Prop} :
    Holds h I (publish e : Obs W E Unit) i Q ↔ I i e ∧ Q () (i + 1) := by
  simp [publish, Holds, run]

/-- The triple of a sequence is the triple of its first part, whose postcondition is that of the
rest. -/
@[simp] theorem holds_bind {p : Obs W E α} {f : α → Obs W E β} {Q : β → Nat → Prop} :
    Holds h I (p >>= f) i Q ↔ Holds h I p i fun a j => Holds h I (f a) j Q := by
  show Holds h I (p.bind f) i Q ↔ _
  induction p generalizing i with
  | ret a => simp [Obs.bind, Holds, run]
  | look k ih => exact ih (h i)
  | emit e k ih => rw [Obs.bind, holds_emit, holds_emit, ih]

theorem Holds.mono {p : Obs W E α} (hp : Holds h I p i Q) (hI : ∀ j e, I j e → J j e) (hQ : ∀ a j, Q a j → R a j) :
    Holds h J p i R :=
  ⟨fun e he => hI _ _ (hp.1 e he), hQ _ _ hp.2⟩

/-- The rule of sequence: what the first part establishes is what the rest starts from. -/
theorem Holds.bind {p : Obs W E α} {f : α → Obs W E β} {R : β → Nat → Prop} (hp : Holds h I p i Q)
    (hf : ∀ a j, Q a j → Holds h I (f a) j R) : Holds h I (p >>= f) i R :=
  holds_bind.2 (hp.mono (fun _ _ he => he) hf)

theorem Holds.post {p : Obs W E α} (hp : Holds h I p i Q) (hQ : ∀ a j, Q a j → R a j) : Holds h I p i R :=
  hp.mono (fun _ _ he => he) hQ

/-- A triple, together with what the run computes. -/
theorem Holds.exact {p : Obs W E α} (hp : Holds h I p i Q) :
    Holds h I p i fun a j => Q a j ∧ a = (p.run h i).value ∧ j = (p.run h i).next :=
  ⟨hp.1, hp.2, rfl, rfl⟩

theorem Holds.and {p : Obs W E α} (hp : Holds h I p i Q) (hr : Holds h J p i R) :
    Holds h (fun j e => I j e ∧ J j e) p i fun a j => Q a j ∧ R a j :=
  ⟨fun e he => ⟨hp.1 e he, hr.1 e he⟩, hp.2, hr.2⟩

theorem next_ge (p : Obs W E α) (i : Nat) : i ≤ (p.run h i).next := by
  induction p generalizing i with
  | ret a => exact le_refl i
  | look k ih => exact (Nat.le_succ i).trans (ih (h i) (i + 1))
  | emit e k ih => exact (Nat.le_succ i).trans (ih (i + 1))

theorem trace_within (p : Obs W E α) (i : Nat) : ∀ e ∈ (p.run h i).trace, i ≤ e.1 ∧ e.1 < (p.run h i).next := by
  induction p generalizing i with
  | ret a => intro e he; cases he
  | look k ih =>
    intro e he
    have := ih (h i) (i + 1) e he
    exact ⟨by omega, this.2⟩
  | emit e' k ih =>
    intro e he
    rcases List.mem_cons.1 he with rfl | he
    · exact ⟨le_refl i, next_ge k (i + 1)⟩
    · have := ih (i + 1) e he
      exact ⟨by omega, this.2⟩

/-- A run's moments: it starts no later than it ends, and publishes in between. -/
theorem holds_moments (p : Obs W E α) : Holds h (fun j _ => i ≤ j) p i fun _ j => i ≤ j :=
  ⟨fun e he => (trace_within p i e he).1, next_ge p i⟩

theorem Holds.moments {p : Obs W E α} (hp : Holds h I p i Q) : Holds h I p i fun a j => Q a j ∧ i ≤ j :=
  (hp.and (holds_moments p)).mono (fun _ _ he => he.1) fun _ _ hq => hq

/-- What a silent program's triple says under any invariant. -/
theorem Holds.silent {p : Obs W E α} (hp : Holds h (fun _ _ => False) p i Q) : Holds h I p i Q :=
  hp.mono (fun _ _ hf => hf.elim) fun _ _ hq => hq

theorem Holds.run_eq {p : Obs W E α} (hp : Holds h (fun _ _ => False) p i Q) :
    ∃ a j, p.run h i = ⟨a, j, []⟩ ∧ Q a j ∧ i ≤ j :=
  ⟨_, _, congrArg (Outcome.mk _ _) (List.eq_nil_iff_forall_not_mem.2 hp.1), hp.2, next_ge p i⟩

/-- What a triple says of a run that is known. -/
theorem Holds.of_run {p : Obs W E α} {a : α} {j : Nat} {l : List (Nat × E)} (hp : Holds h I p i Q)
    (hr : p.run h i = ⟨a, j, l⟩) : Q a j := by
  have hq := hp.2
  rwa [hr] at hq

/-- The rule of sequence after a silent program, with its run. -/
theorem Holds.bind_run {p : Obs W E α} {f : α → Obs W E β} {R : β → Nat → Prop}
    (hp : Holds h (fun _ _ => False) p i Q)
    (hf : ∀ a j, p.run h i = ⟨a, j, []⟩ → i ≤ j → Q a j → Holds h I (f a) j R) : Holds h I (p >>= f) i R := by
  obtain ⟨a, j, hrun, hq, hij⟩ := hp.run_eq
  refine holds_bind.2 ⟨?_, ?_⟩ <;> rw [hrun]
  · nofun
  · exact hf a j hrun hij hq

/-- Elementwise programs: what each element gives, once it holds, holds at the end. -/
theorem holds_each {f : α → Obs W E β} {P : α → β → Nat → Prop} {as : List α}
    (later : ∀ a b j k, P a b j → j ≤ k → P a b k)
    (hf : ∀ a ∈ as, ∀ j, i ≤ j → Holds h I (f a) j (P a)) :
    Holds h I (each f as) i fun bs j => List.Forall₂ (P · · j) as bs := by
  induction as generalizing i with
  | nil => exact ⟨nofun, .nil⟩
  | cons a as ih =>
    rw [each]
    refine (hf a List.mem_cons_self i le_rfl).moments.bind fun b j hb => ?_
    refine (ih fun a' ha' j' hj' => hf a' (List.mem_cons_of_mem _ ha') j' (hb.2.trans hj')).moments.bind fun bs k hbs => ?_
    rw [holds_pure]
    exact .cons (later a b j k hb.1 hbs.2) hbs.1

/-- The loop rule: an invariant of the elements done so far and the threaded value that one round keeps. -/
theorem holds_fold_done {f : β → α → Obs W E β} {P : List α → β → Nat → Prop} {as : List α} {b : β} (hb : P [] b i)
    (hf : ∀ done a rest, as = done ++ a :: rest → ∀ b j, i ≤ j → P done b j → Holds h I (f b a) j (P (done ++ [a]))) :
    Holds h I (fold f b as) i (P as) := by
  -- the elements still to do, after those done
  have hrest : ∀ (todo done : List α) (b : β) (j : Nat), as = done ++ todo → i ≤ j → P done b j →
      Holds h I (fold f b todo) j (P as) := by
    intro todo
    induction todo with
    | nil =>
      intro done b j has _ hP
      rw [has, List.append_nil]
      exact ⟨nofun, hP⟩
    | cons a todo ih =>
      intro done b j has hij hP
      rw [fold]
      refine (hf done a todo has b j hij hP).moments.bind fun b' k hk => ?_
      exact ih (done ++ [a]) b' k (by rw [has, List.append_assoc]; rfl) (hij.trans hk.2) hk.1
  exact hrest as [] b i rfl le_rfl hb

end

/-! ## Repetition -/

def repeatN (body : α → Obs W E α) : Nat → α → Obs W E α
  | 0, a => ret a
  | n + 1, a => do
    let a' ← body a
    repeatN body n a'

/-- Every round of a run starts in a state and at a moment that satisfy `C`. -/
def EachRound (h : Nat → W) (body : α → Obs W E α) (C : α → Nat → Prop) : Nat → α → Nat → Prop
  | 0, _, _ => True
  | n + 1, a, i => C a i ∧ EachRound h body C n ((body a).run h i).value ((body a).run h i).next

theorem EachRound.of_forall {h : Nat → W} {body : α → Obs W E α} {C : α → Nat → Prop} (hC : ∀ a i, C a i) :
    ∀ n a i, EachRound h body C n a i
  | 0, _, _ => trivial
  | n + 1, a, i => ⟨hC a i, EachRound.of_forall hC n _ _⟩

theorem EachRound.mono {h : Nat → W} {body : α → Obs W E α} {C D : α → Nat → Prop} (hCD : ∀ a i, C a i → D a i) :
    ∀ {n : Nat} {a : α} {i : Nat}, EachRound h body C n a i → EachRound h body D n a i
  | 0, _, _, _ => trivial
  | _ + 1, _, _, hc => ⟨hCD _ _ hc.1, hc.2.mono hCD⟩

/-- The state and the moment that a run has reached after some rounds. -/
def reached (h : Nat → W) (body : α → Obs W E α) : Nat → α → Nat → α × Nat
  | 0, a, i => (a, i)
  | n + 1, a, i => reached h body n ((body a).run h i).value ((body a).run h i).next

theorem reached_succ (h : Nat → W) (body : α → Obs W E α) : ∀ (k : Nat) (a : α) (i : Nat),
    reached h body (k + 1) a i =
      (((body (reached h body k a i).1).run h (reached h body k a i).2).value,
        ((body (reached h body k a i).1).run h (reached h body k a i).2).next)
  | 0, _, _ => rfl
  | k + 1, _, _ => reached_succ h body k _ _

/-- What every round that satisfies a condition keeps holds of the states reached. -/
theorem EachRound.keeps {h : Nat → W} {body : α → Obs W E α} {P C : α → Nat → Prop}
    (step : ∀ a i, P a i → C a i → P ((body a).run h i).value ((body a).run h i).next) : ∀ {k n : Nat} {a : α} {i : Nat},
    P a i → EachRound h body C n a i → k ≤ n → P (reached h body k a i).1 (reached h body k a i).2
  | 0, _, _, _, ha, _, _ => ha
  | _ + 1, _ + 1, a, i, ha, hc, hk => by
    rw [reached]
    exact EachRound.keeps step (step a i ha hc.1) hc.2 (Nat.le_of_succ_le_succ hk)

theorem EachRound.get {h : Nat → W} {body : α → Obs W E α} {C : α → Nat → Prop} : ∀ {k n : Nat} {a : α} {i : Nat},
    EachRound h body C n a i → k < n → C (reached h body k a i).1 (reached h body k a i).2
  | 0, _ + 1, _, _, hc, _ => hc.1
  | _ + 1, _ + 1, _, _, hc, hk => hc.2.get (Nat.lt_of_succ_lt_succ hk)

theorem le_reached (h : Nat → W) (body : α → Obs W E α) : ∀ (k : Nat) (a : α) (i : Nat), i ≤ (reached h body k a i).2
  | 0, _, i => le_refl i
  | k + 1, a, i => (next_ge (body a) i).trans (le_reached h body k _ _)

/-- The rounds of a run whose body takes time lie before its end. -/
theorem EachRound.within {h : Nat → W} {body : α → Obs W E α} {e : Nat} (hlt : ∀ a i, i < ((body a).run h i).next) :
    ∀ {n : Nat} {a : α} {i : Nat}, (reached h body n a i).2 ≤ e →
      EachRound h body (fun a j => j < e ∧ ((body a).run h j).next ≤ e) n a i
  | 0, _, _, _ => trivial
  | n + 1, a, i, he => by
    have hend := (le_reached h body n _ _).trans he
    exact ⟨⟨(hlt a i).trans_le hend, hend⟩, EachRound.within hlt he⟩

instance EachRound.decide (h : Nat → W) (body : α → Obs W E α) (C : α → Nat → Prop) [∀ a i, Decidable (C a i)] :
    ∀ n a i, Decidable (EachRound h body C n a i)
  | 0, _, _ => .isTrue trivial
  | n + 1, a, i => @instDecidableAnd _ _ _ (EachRound.decide h body C n ((body a).run h i).value ((body a).run h i).next)

section

variable {h : Nat → W} {I : Nat → E → Prop} {body : α → Obs W E α} {P C D : α → Nat → Prop}

/-- The run rule: what holds at first and is kept by every round that satisfies a condition holds at the
end of a run whose rounds all satisfy it, and of everything the run publishes. -/
theorem holds_repeatN (step : ∀ a i, P a i → C a i → Holds h I (body a) i P) : ∀ (n : Nat) (a : α) (i : Nat),
    P a i → EachRound h body C n a i → Holds h I (repeatN body n a) i P
  | 0, _, _, ha, _ => ⟨nofun, ha⟩
  | n + 1, a, i, ha, hc => by
    rw [repeatN, holds_bind]
    have hround := step a i ha hc.1
    have hrest := holds_repeatN step n _ _ hround.2 hc.2
    exact ⟨hround.1, hrest⟩

/-- The same for a property of single rounds: an invariant and the condition give it in each of them. -/
theorem EachRound.imp (step : ∀ a i, P a i → C a i → D a i ∧ P ((body a).run h i).value ((body a).run h i).next) :
    ∀ (n : Nat) (a : α) (i : Nat), P a i → EachRound h body C n a i → EachRound h body D n a i
  | 0, _, _, _, _ => trivial
  | n + 1, a, i, ha, hc => by
    obtain ⟨hd, hp⟩ := step a i ha hc.1
    exact ⟨hd, EachRound.imp step n _ _ hp hc.2⟩

end

end Obs
end BareServer.Lib
