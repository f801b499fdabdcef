/-
The caps on all connections, with listeners moved, stopped and started again while their workers live on.
-/
import BareServer.Accept.Admission

namespace BareServer

open BareServer.Lib Relation

variable {a : Outcomes} {ctx ctx' : AcceptCtx} {t : Thread} {ts : List Thread} {l l' : Listener}

/-! ## Workers -/

def Thread.isWorker : Thread → Bool
  | .worker _ => true
  | .loop _ _ => false

def Listener.workers (l : Listener) : Nat := l.threads.countP Thread.isWorker

/-- Every worker holds a slot. -/
theorem Listener.workers_le (l : Listener) : l.workers ≤ l.permits := by
  refine List.countP_mono_left fun t _ ht => ?_
  cases t with
  | loop gen place => cases ht
  | worker p => rfl

theorem Listener.Balanced.workers_le {capacity : Nat} (h : l.Balanced capacity) : l.workers ≤ capacity := by
  have hslots := h.slots
  rw [l.held_holding] at hslots
  have hle := l.workers_le
  omega

theorem Listener.workers_le_upcoming (l : Listener) : l.workers ≤ l.held Thread.upcoming := by
  obtain ⟨ctx, ts⟩ := l
  unfold workers Pool.held
  induction ts with
  | nil => exact le_rfl
  | cons t ts ih =>
    rw [List.countP_cons, List.map_cons, List.sum_cons, add_comm]
    refine Nat.add_le_add ?_ ih
    cases t with
    | loop gen place => exact Nat.zero_le _
    | worker p => exact le_rfl

/-! ## Retired listeners -/

/-- No access touches a counter, and none of a retired listener leaves more workers, alive or to come. -/
theorem Effect.fades {r : Option (AcceptCtx × List Thread)} (he : Effect ctx t r) (h : r = some (ctx', ts)) :
    ctx'.gens = ctx.gens ∧ Fades ctx t ts := by
  cases he with
  | pass _ hup =>
    cases h
    exact ⟨rfl, hup⟩
  | acquire _ _ hup =>
    obtain ⟨⟨got, sem⟩, -, heq⟩ := Option.map_eq_some_iff.1 h
    cases heq
    exact ⟨rfl, hup got⟩
  | reserve _ _ _ hup =>
    cases h
    exact ⟨rfl, hup _⟩
  | release _ hup =>
    cases h
    exact ⟨rfl, hup⟩
  | @releasePeer ts p _ hup =>
    obtain ⟨ctx', hdrop, heq⟩ := Option.map_eq_some_iff.1 h
    obtain ⟨peer, -, rfl⟩ := Option.map_eq_some_iff.1 hdrop
    cases heq
    exact ⟨rfl, hup⟩

theorem Turns.retired : Pool.Keeps Turns (fun _ => (0 : Nat)) fun ctx _ => ctx.Retired := by
  intro ctx ts ctx' ts' h others hr
  cases h with
  | turn a h =>
    rw [AcceptCtx.Retired, ((Thread.turn_effect a _ _).fades h).1]
    exact hr

/-- A retired listener without workers stays so. -/
theorem Turns.quiet : Pool.Keeps Turns Thread.upcoming fun ctx n => ctx.Retired ∧ n = 0 := by
  intro ctx ts ctx' ts' h others hq
  obtain ⟨hr, hzero⟩ := hq
  cases h with
  | turn a h =>
    rw [List.map_singleton, List.sum_singleton] at hzero
    obtain ⟨hgens, hle⟩ := (Thread.turn_effect a _ _).fades h
    have hle := hle hr
    refine ⟨?_, by omega⟩
    rw [AcceptCtx.Retired, hgens]
    exact hr

theorem AcceptCtx.older_eq (ctx : AcceptCtx) : ctx.older = ctx.gens.dropLast := List.dropLast_concat.symm

/-- Of the accept loops of a listener under `watch` only the latest may be current. -/
theorem Moves.latest : Pool.Keeps Moves (fun _ => (0 : Nat)) fun ctx _ => 0 ∉ ctx.older := by
  intro ctx ts ctx' ts' h others hold
  cases h with
  | turn h =>
    cases h with
    | turn a h =>
      rw [AcceptCtx.older_eq, ((Thread.turn_effect a _ _).fades h).1, ← AcceptCtx.older_eq]
      exact hold
  | setMax max => exact hold
  | rebind => simpa [AcceptCtx.gens, AcceptCtx.retire] using hold

/-- Then none is once it is retired. -/
theorem AcceptCtx.retire_retired (h : 0 ∉ ctx.older) : ctx.retire.Retired := by
  simpa [Retired, gens, retire] using h

/-- A fresh listener without a limit for an address can fill up, with connections from one address. -/
theorem Listener.fills (ip : IpAddr) (c n : Nat) (ts : List Thread) :
    ReflTransGen (Pool.Turn Moves) ⟨⟨⟨c + n⟩, .new 0, [], 0⟩, .loop 0 .checking :: ts⟩
      ⟨⟨⟨c⟩, .new 0, [], 0⟩, .loop 0 .checking :: (List.replicate n (.worker (some ⟨ip, false⟩)) ++ ts)⟩ := by
  induction n generalizing ts with
  | zero => exact .refl
  | succ n ih =>
    have hgrant : (PeerLimiter.new 0).tryAcquire ip = (some ⟨ip, false⟩, .new 0) := rfl
    rw [List.replicate_succ', List.append_assoc]
    exact (Listener.accepts hgrant ts).trans (ih _)

/-! ## Runs of the process -/

namespace Server

/-- The plain listeners, the latest one first. -/
def plain (s : Server) : List Listener := s.http.toList ++ s.past

/-- The plain workers that are alive, also those of listeners since stopped. -/
def plainWorkers (s : Server) : Nat := (s.plain.map Listener.workers).sum

/-- If the step starts a plain listener, the earlier ones have no worker by then, alive or to come. -/
def StartsFresh (s s' : Server) : Prop :=
  s.http = none → s'.http ≠ none → ∀ l ∈ s.past, l.held Thread.upcoming = 0

/-- Only the latest plain listener has workers, or may get one. -/
structure Quiet (s : Server) : Prop where
  http : ∀ l, s.http = some l → 0 ∉ l.shared.older
  past : ∀ l ∈ s.past, l.shared.Retired
  earlier : ∀ l ∈ s.plain.tail, l.held Thread.upcoming = 0

theorem Booted.quiet {s : Server} (h : Booted s) : s.Quiet := by
  cases h with
  | https max => exact ⟨(fun l hl => by cases hl), (fun l hl => by cases hl), fun l hl => by cases hl⟩
  | both max =>
    refine ⟨fun l hl => ?_, (fun l hl => by cases hl), fun l hl => by cases hl⟩
    cases hl
    exact List.not_mem_nil

theorem Step.quiet {s s' : Server} (h : Step s s') (hfresh : s.StartsFresh s') (hs : s.Quiet) : s'.Quiet := by
  obtain ⟨hhttp, hpast, hearlier⟩ := hs
  cases h with
  | https h => exact ⟨hhttp, hpast, hearlier⟩
  | http hl h =>
    refine ⟨fun l hl' => ?_, hpast, ?_⟩
    · cases hl'
      exact Moves.latest.turn h (hhttp _ hl)
    · simp only [plain, hl] at hearlier
      exact hearlier
  | @past before after l l' hl h =>
    have hl' : l ∈ s.past := hl ▸ List.mem_append_right _ List.mem_cons_self
    have hretired : l'.shared.Retired := Turns.retired.turn h (hpast l hl')
    have hquiet : l.held Thread.upcoming = 0 → l'.held Thread.upcoming = 0 := fun hzero =>
      (Turns.quiet.turn h ⟨hpast l hl', hzero⟩).2
    refine ⟨hhttp, ?_, ?_⟩
    · rw [hl, List.forall_mem_append, List.forall_mem_cons] at hpast
      rw [List.forall_mem_append, List.forall_mem_cons]
      exact ⟨hpast.1, hretired, hpast.2.2⟩
    · -- the listener is the latest one, or one of the earlier
      rw [plain, hl, ← List.append_assoc] at hearlier
      rw [plain, ← List.append_assoc]
      generalize s.http.toList ++ before = pre at hearlier ⊢
      rcases pre with _ | ⟨x, pre⟩
      · exact hearlier
      · simp only [List.cons_append, List.tail_cons, List.forall_mem_append, List.forall_mem_cons] at hearlier ⊢
        exact ⟨hearlier.1, hquiet hearlier.2.1, hearlier.2.2⟩
  | @stopHttp l hl =>
    refine ⟨(fun l hl' => by cases hl'), ?_, ?_⟩
    · rw [List.forall_mem_cons]
      exact ⟨AcceptCtx.retire_retired (hhttp l hl), hpast⟩
    · simp only [plain, hl] at hearlier
      exact hearlier
  | startHttp hl max =>
    refine ⟨fun l hl' => ?_, hpast, hfresh hl (by simp)⟩
    cases hl'
    exact List.not_mem_nil

/-- The plain workers of a quiet process are those of its latest plain listener. -/
theorem Quiet.plainWorkers_le {s : Server} (hs : s.Quiet) (hb : s.Balanced) : s.plainWorkers ≤ maxConnsHttp := by
  obtain ⟨-, hhttp, hpast⟩ := balanced_iff.1 hb
  have hplain : ∀ l ∈ s.plain, l.Balanced maxConnsHttp := by
    simp only [plain, List.forall_mem_append, Option.mem_toList]
    exact ⟨hhttp, hpast⟩
  have hearlier := hs.earlier
  unfold plainWorkers
  generalize s.plain = ls at hplain hearlier ⊢
  rcases ls with _ | ⟨l, ls⟩
  · exact Nat.zero_le _
  · have hnone : (ls.map Listener.workers).sum = 0 := by
      rw [List.sum_eq_zero_iff, List.forall_mem_map]
      intro l hl
      have hle := l.workers_le_upcoming
      rw [hearlier l hl] at hle
      omega
    rw [List.map_cons, List.sum_cons, hnone, add_zero]
    exact (hplain l List.mem_cons_self).workers_le

theorem StartsFresh.run {s0 s : Server} (hboot : Booted s0)
    (hrun : ReflTransGen (fun s s' => Step s s' ∧ StartsFresh s s') s0 s) : s.Quiet := by
  induction hrun with
  | refl => exact hboot.quiet
  | tail _ hstep ih => exact hstep.1.quiet hstep.2 ih

/-- At most 1024 HTTPS workers are alive in every run; and at most 256 plain ones in every run that starts the plain
listener only once the earlier ones have no worker, alive or to come. -/
theorem capped_fresh {s0 s : Server} (hboot : Booted s0) (hrun : ReflTransGen Step s0 s) :
    s.https.workers ≤ 1024 ∧
      (ReflTransGen (fun s s' => Step s s' ∧ StartsFresh s s') s0 s → s.plainWorkers ≤ 256) := by
  have hb : s.Balanced := Reachable.balanced ⟨s0, hboot, hrun⟩
  exact ⟨(balanced_iff.1 hb).1.workers_le, fun hfresh => (StartsFresh.run hboot hfresh).plainWorkers_le hb⟩

/-- Steps of a listener under `watch` start none. -/
theorem StartsFresh.https_run {s : Server} {l : Listener} (h : ReflTransGen (Pool.Turn Moves) s.https l) :
    ReflTransGen (fun s s' => Step s s' ∧ StartsFresh s s') s { s with https := l } := by
  induction h with
  | refl => exact .refl
  | tail _ hturn ih => exact ih.tail ⟨.https hturn, fun hnone hsome => absurd hnone hsome⟩

theorem StartsFresh.http_run {s : Server} {l l' : Listener} (hl : s.http = some l)
    (h : ReflTransGen (Pool.Turn Moves) l l') :
    ReflTransGen (fun s s' => Step s s' ∧ StartsFresh s s') s { s with http := some l' } := by
  induction h with
  | refl => exact hl ▸ .refl
  | tail _ hturn ih => exact ih.tail ⟨.http rfl hturn, fun hnone => by cases hnone⟩

/-- A process whose listeners have a connection each. -/
def opened : Server where
  https := ⟨⟨⟨1023⟩, .new 0, [], 0⟩, [.loop 0 .checking, .worker (some ⟨.v4 1, false⟩)]⟩
  http := some ⟨⟨⟨255⟩, .new 0, [], 0⟩, [.loop 0 .checking, .worker (some ⟨.v4 2, false⟩)]⟩
  past := []

/-- The same once the plain connection was over and its listener stopped and started again, under a limit for an
address now and with a new connection from there. -/
def renewed : Server where
  https := opened.https
  http := some ⟨⟨⟨255⟩, ⟨64, (∅ : Map IpAddr Nat).insert (.v4 2) 1⟩, [], 0⟩,
    [.loop 0 .checking, .worker (some ⟨.v4 2, true⟩)]⟩
  past := [(Listener.start 256 0).retire]

/-- A plain connection before the stop and one after the start, and one under TLS throughout: each is within the caps. -/
theorem capped_fresh_renewed :
    Booted ⟨.start 1024 0, some (.start 256 0), []⟩ ∧ opened.https.workers = 1 ∧ opened.plainWorkers = 1 ∧
      renewed.https.workers = 1 ∧ renewed.plainWorkers = 1 ∧
      renewed.https.workers ≤ 1024 ∧ renewed.plainWorkers ≤ 256 := by
  let idle : Server := { opened with http := some (.start 256 0) }
  let down : Server := { idle with http := none, past := [(Listener.start 256 0).retire] }
  let back : Server := { down with http := some (.start 256 64) }
  have hgrant : (PeerLimiter.new 64).tryAcquire (.v4 2) =
      (some ⟨.v4 2, true⟩, ⟨64, (∅ : Map IpAddr Nat).insert (.v4 2) 1⟩) := rfl
  -- both listeners accept
  have hopen := (StartsFresh.https_run (s := ⟨.start 1024 0, some (.start 256 0), []⟩)
    (Listener.fills (.v4 1) 1023 1 [])).trans (StartsFresh.http_run rfl (Listener.fills (.v4 2) 255 1 []))
  have hend : ReflTransGen (Pool.Turn Moves) ⟨⟨⟨255⟩, .new 0, [], 0⟩, [.loop 0 .checking, .worker (some ⟨.v4 2, false⟩)]⟩
      (Listener.start 256 0) := Listener.ends rfl [.loop 0 .checking] []
  have hidle := StartsFresh.http_run (s := opened) rfl hend
  have hstop : Step idle down ∧ StartsFresh idle down := ⟨.stopHttp rfl, fun hnone => by cases hnone⟩
  have hstart : Step down back ∧ StartsFresh down back := by
    refine ⟨.startHttp rfl 64, fun _ _ l hl => ?_⟩
    rw [List.mem_singleton.1 hl]
    rfl
  have hback := StartsFresh.http_run (s := back) rfl (Listener.accepts hgrant [])
  have hrun := (((hopen.trans hidle).tail hstop).tail hstart).trans hback
  obtain ⟨hhttps, hplain⟩ := capped_fresh (.both 0) (ReflTransGen.mono (fun _ _ hstep => hstep.1) _ _ hrun)
  exact ⟨.both 0, rfl, rfl, rfl, rfl, hhttps, hplain hrun⟩

/-- The condition is needed: when the plain listener is started while a worker of an earlier one is alive, more than
256 of them may be. -/
theorem start_exceeds {s : Server} (hl : s.http = none) (hw : 0 < (s.past.map Listener.workers).sum) :
    ∃ s', ReflTransGen Step s s' ∧ 256 < s'.plainWorkers := by
  have hstart : Step s { s with http := some (.start maxConnsHttp 0) } := .startHttp hl 0
  refine ⟨_, (ReflTransGen.single hstart).trans (Step.http_run rfl (Listener.fills (.v4 1) 0 256 [])), ?_⟩
  have hfull : ∀ ctx, Listener.workers ⟨ctx, .loop 0 .checking :: (List.replicate 256 (.worker (some ⟨.v4 1, false⟩)) ++ [])⟩ = 256 := by
    intro ctx
    rw [Listener.workers, List.append_nil, List.countP_cons_of_neg Bool.false_ne_true, List.countP_replicate]
    rfl
  simp only [plainWorkers, plain, Option.toList_some, List.singleton_append, List.map_cons, List.sum_cons, hfull]
  omega

/-- A process whose plain listener was stopped with one connection open. -/
def stopped : Server where
  https := .start 1024 0
  http := none
  past := [⟨⟨⟨255⟩, .new 0, [], 1⟩, [.loop 0 .checking, .worker (some ⟨.v4 1, false⟩)]⟩]

theorem stopped_reachable : stopped.Reachable := by
  have hrun := Step.http_run (s := ⟨.start 1024 0, some (.start 256 0), []⟩) rfl (Listener.fills (.v4 1) 255 1 [])
  have hstop := Step.stopHttp (s := ⟨.start 1024 0,
    some ⟨⟨⟨255⟩, .new 0, [], 0⟩, [.loop 0 .checking, .worker (some ⟨.v4 1, false⟩)]⟩, []⟩) rfl
  exact ⟨_, .both 0, hrun.tail hstop⟩

/-- The plain listener comes back with slots of its own, and 257 plain workers are alive. -/
theorem capped_restarted : ¬ ∀ s : Server, s.Reachable → s.https.workers ≤ 1024 ∧ s.plainWorkers ≤ 256 := by
  intro hcap
  obtain ⟨s0, hboot, hrun⟩ := stopped_reachable
  obtain ⟨s, hmore, hexceeds⟩ := start_exceeds (s := stopped) rfl (by decide)
  have hle := (hcap s ⟨s0, hboot, hrun.trans hmore⟩).2
  omega

end Server

end BareServer
