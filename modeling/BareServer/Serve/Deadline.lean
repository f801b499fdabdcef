/-
The clocks of one connection (`main.rs`, `DeadlineIo` and `Phase`): the cap on a response, the bound on
waiting for a head, and the least rate of a transfer; and what the cap is measured from.
-/
import Mathlib.Tactic

namespace BareServer

/-! ## The socket below TLS -/

/-- Nanoseconds. -/
def secs (n : Nat) : Nat := 1000000000 * n

def ioTimeoutSecs : Nat := 15
def headerTimeoutSecs : Nat := 10
def connMaxSecs : Nat := 300
def progressTimeoutSecs : Nat := 30
def minProgressBytes : Nat := 1024

/-- Why an operation fails: the absolute transfer deadline, the request head deadline, a transfer below the
minimum rate, or the socket itself. -/
inductive IoError where
  | transferDeadline
  | headDeadline
  | belowRate
  | socket
  deriving DecidableEq, Repr

/-- The state of `DeadlineIo`. `phase` is shared with the request loop, which sets and clears it. -/
structure DeadlineIo where
  window : Nat
  moved : Nat
  deadline : Option Nat
  phase : Option Nat

/-- The readings of the clock that one operation takes, in order: against the deadline, against the phase,
against the window, and where the next window starts. -/
structure Clock where
  deadline : Nat
  phase : Nat
  elapsed : Nat
  window : Nat

/-- One call, with what the socket below answers: a count of bytes, or a failure. -/
inductive Op where
  | read (n : Option Nat)
  | write (n : Option Nat)
  | flush (ok : Bool)

/-- The cap a config sets on a connection: none for 0. -/
def maxTransfer (maxResponseSecs : Nat) : Option Nat := if maxResponseSecs = 0 then none else some (secs maxResponseSecs)

namespace DeadlineIo

def new (now : Nat) (maxTransfer : Option Nat) : DeadlineIo where
  window := now
  moved := 0
  deadline := maxTransfer.map (now + ·)
  phase := none

def check (io : DeadlineIo) (c : Clock) : Except IoError Unit :=
  if io.deadline.any (· ≤ c.deadline) then .error .transferDeadline
  else if io.phase.any (· ≤ c.phase) then .error .headDeadline
  else .ok ()

/-- A window that has run out must have moved enough, and is followed by a new one. -/
def checkRate (io : DeadlineIo) (c : Clock) : Except IoError DeadlineIo :=
  if secs progressTimeoutSecs ≤ c.elapsed - io.window then
    if io.moved < minProgressBytes then .error .belowRate
    else .ok { io with window := c.window, moved := 0 }
  else .ok io

/-- Addition of a `usize` that stays at its maximum. -/
def saturatingAdd (a b : Nat) : Nat := min (a + b) (2 ^ 64 - 1)

def read (io : DeadlineIo) (c : Clock) (n : Option Nat) : Except IoError Nat × DeadlineIo :=
  match io.check c with
  | .error e => (.error e, io)
  | .ok _ =>
    match n with
    | none => (.error .socket, io)
    | some n => (.ok n, if 0 < n then { io with window := c.window, moved := 0 } else io)

def write (io : DeadlineIo) (c : Clock) (n : Option Nat) : Except IoError Nat × DeadlineIo :=
  match io.check c with
  | .error e => (.error e, io)
  | .ok _ =>
    match io.checkRate c with
    | .error e => (.error e, io)
    | .ok io =>
      match n with
      | none => (.error .socket, io)
      | some n => (.ok n, { io with moved := saturatingAdd io.moved n })

def flush (io : DeadlineIo) (c : Clock) (ok : Bool) : Except IoError Nat × DeadlineIo :=
  match io.check c with
  | .error e => (.error e, io)
  | .ok _ =>
    match io.checkRate c with
    | .error e => (.error e, io)
    | .ok io => (if ok then .ok 0 else .error .socket, io)

def apply (io : DeadlineIo) (c : Clock) : Op → Except IoError Nat × DeadlineIo
  | .read n => io.read c n
  | .write n => io.write c n
  | .flush ok => io.flush c ok

end DeadlineIo

/-! ## A connection over time -/

/-- What happens on a connection: the request loop starts waiting for a head and arms the phase; a response
starts, which disarms it unless the loop itself answers with an error; or the socket is used. -/
inductive Event where
  | arm (now : Nat)
  | respond (now : Nat) (loopError : Bool)
  | op (c : Clock) (op : Op)

/-- One use of the socket: when, in which response, by its start, and what came of it. -/
structure Attempt where
  at' : Nat
  inFlight : Option Nat
  result : Except IoError Nat

/-- The uses of the socket of one connection, from a state and the response in flight on. -/
def attempts (connDeadline : Nat) : DeadlineIo → Option Nat → List Event → List Attempt
  | _, _, [] => []
  | io, _, .arm now :: events =>
    attempts connDeadline { io with phase := some (min connDeadline (now + secs (ioTimeoutSecs + headerTimeoutSecs))) }
      none events
  | io, _, .respond now loopError :: events =>
    attempts connDeadline (if loopError then io else { io with phase := none }) (some now) events
  | io, inFlight, .op c op :: events =>
    ⟨c.deadline, inFlight, (io.apply c op).1⟩ :: attempts connDeadline (io.apply c op).2 inFlight events

/-- A connection accepted at one time, whose `DeadlineIo` is made at another, under a config's cap. -/
def connection (accepted made maxResponseSecs : Nat) (events : List Event) : List Attempt :=
  attempts (accepted + secs connMaxSecs) (.new made (maxTransfer maxResponseSecs)) none events

/-- When the socket is used, and in which response. -/
def uses : Option Nat → List Event → List (Nat × Option Nat)
  | _, [] => []
  | _, .arm _ :: events => uses none events
  | _, .respond now _ :: events => uses (some now) events
  | inFlight, .op c _ :: events => (c.deadline, inFlight) :: uses inFlight events

namespace DeadlineIo

variable {io : DeadlineIo} {c : Clock}

theorem checkRate_deadline {io' : DeadlineIo} (h : io.checkRate c = .ok io') : io'.deadline = io.deadline := by
  unfold checkRate at h
  repeat' split at h
  all_goals cases h
  all_goals rfl

theorem checkRate_error {e : IoError} (h : io.checkRate c = .error e) : e = .belowRate := by
  unfold checkRate at h
  repeat' split at h
  all_goals cases h
  rfl

/-- The deadline is checked before the phase. -/
theorem check_transfer : io.check c = .error .transferDeadline ↔ io.deadline.any (· ≤ c.deadline) = true := by
  unfold check
  split
  · rename_i hd
    exact ⟨fun _ => hd, fun _ => rfl⟩
  · rename_i hd
    refine ⟨fun h => ?_, fun h => absurd h hd⟩
    split at h <;> cases h

/-- An operation that fails the check does nothing else. -/
theorem apply_of_error {e : IoError} (h : io.check c = .error e) (op : Op) : io.apply c op = (.error e, io) := by
  cases op <;> simp only [apply, read, write, flush, h]

/-- An operation that passes the check keeps the deadline and does not fail by it. -/
theorem apply_of_ok (h : io.check c = .ok ()) (op : Op) :
    (io.apply c op).2.deadline = io.deadline ∧ (io.apply c op).1 ≠ .error .transferDeadline := by
  cases op with
  | read n =>
    simp only [apply, read, h]
    cases n with
    | none => exact ⟨rfl, fun h => by cases h⟩
    | some n =>
      refine ⟨?_, fun h => by cases h⟩
      simp only
      split <;> rfl
  | write n =>
    simp only [apply, write, h]
    cases hrate : io.checkRate c with
    | error e =>
      rw [checkRate_error hrate]
      exact ⟨rfl, fun h => by cases h⟩
    | ok io' =>
      have hkept := checkRate_deadline hrate
      cases n with
      | none => exact ⟨hkept, fun h => by cases h⟩
      | some n => exact ⟨hkept, fun h => by cases h⟩
  | flush ok =>
    simp only [apply, flush, h]
    cases hrate : io.checkRate c with
    | error e =>
      rw [checkRate_error hrate]
      exact ⟨rfl, fun h => by cases h⟩
    | ok io' =>
      have hkept := checkRate_deadline hrate
      cases ok with
      | false => exact ⟨hkept, fun h => by cases h⟩
      | true => exact ⟨hkept, fun h => by cases h⟩

/-- No use of the socket moves the deadline. -/
theorem apply_deadline (op : Op) : (io.apply c op).2.deadline = io.deadline := by
  cases h : io.check c with
  | error e => rw [apply_of_error h]
  | ok u => exact (apply_of_ok h op).1

/-- The deadline fails every operation from then on, and nothing else fails one so. -/
theorem apply_transfer (op : Op) :
    (io.apply c op).1 = .error .transferDeadline ↔ io.deadline.any (· ≤ c.deadline) = true := by
  rw [← check_transfer]
  cases h : io.check c with
  | error e => rw [apply_of_error h]; simp
  | ok u => exact ⟨fun hf => absurd hf (apply_of_ok h op).2, fun hf => by cases hf⟩

end DeadlineIo

/-- The uses of a connection are those of its events, and a use is cut by the deadline set at its start exactly
when it is made then or later. -/
theorem attempts_cut (connDeadline : Nat) (events : List Event) (io : DeadlineIo) (inFlight : Option Nat) :
    (attempts connDeadline io inFlight events).map
        (fun a => ((a.at', a.inFlight), decide (a.result = .error .transferDeadline))) =
      (uses inFlight events).map fun u => (u, io.deadline.any (· ≤ u.1)) := by
  induction events generalizing io inFlight with
  | nil => rfl
  | cons event events ih =>
    cases event with
    | arm now => exact ih _ none
    | respond now loopError =>
      rw [attempts, ih, uses]
      cases loopError <;> rfl
    | op c op =>
      rw [attempts, uses, List.map_cons, List.map_cons, ih, DeadlineIo.apply_deadline]
      have hcut : decide ((io.apply c op).1 = .error .transferDeadline) = io.deadline.any (· ≤ c.deadline) := by
        rw [Bool.eq_iff_iff, decide_eq_true_iff]
        exact DeadlineIo.apply_transfer op
      exact congrArg (fun cut => ((c.deadline, inFlight), cut) :: _) hcut

theorem connection_deadline {m : Nat} (hm : 0 < m) (made at' : Nat) :
    (DeadlineIo.new made (maxTransfer m)).deadline.any (· ≤ at') = true ↔ made + secs m ≤ at' := by
  have hm' : m ≠ 0 := by omega
  simp only [DeadlineIo.new, maxTransfer, if_neg hm', Option.map_some, Option.any_some, decide_eq_true_iff]

/-- The uses that a connection's cap cuts are those made once it has run out, counted from the connection's start. -/
theorem connection_cut {m : Nat} (hm : 0 < m) (accepted made : Nat) (events : List Event) (u : Nat × Option Nat) :
    (∃ a ∈ connection accepted made m events, a.result = .error .transferDeadline ∧ (a.at', a.inFlight) = u) ↔
      u ∈ uses none events ∧ made + secs m ≤ u.1 := by
  have hcuts := attempts_cut (accepted + secs connMaxSecs) events (.new made (maxTransfer m)) none
  rw [← connection_deadline hm made u.1]
  constructor
  · rintro ⟨a, ha, hcut, rfl⟩
    have hmem := hcuts ▸ List.mem_map_of_mem ha
    obtain ⟨u, hu, heq⟩ := List.mem_map.1 hmem
    rw [decide_eq_true hcut, Prod.mk.injEq] at heq
    obtain ⟨rfl, hdue⟩ := heq
    exact ⟨hu, hdue⟩
  · rintro ⟨hu, hdue⟩
    have hmem := hcuts ▸ List.mem_map_of_mem hu
    obtain ⟨a, ha, heq⟩ := List.mem_map.1 hmem
    rw [hdue, Prod.mk.injEq, decide_eq_true_iff] at heq
    exact ⟨a, ha, heq.2, heq.1⟩

/-- A cap of `m` seconds cuts only responses that have been in flight for `m` seconds exactly when the socket is used
`m` seconds or more after the connection's start only for such responses. -/
theorem connection_capped {m : Nat} (hm : 0 < m) (accepted made : Nat) (events : List Event) :
    (∀ a ∈ connection accepted made m events, a.result = .error .transferDeadline →
        ∃ start, a.inFlight = some start ∧ start + secs m ≤ a.at') ↔
      ∀ u ∈ uses none events, made + secs m ≤ u.1 → ∃ start, u.2 = some start ∧ start + secs m ≤ u.1 := by
  constructor
  · intro hcap u hu hdue
    obtain ⟨a, ha, hcut, rfl⟩ := (connection_cut hm accepted made events u).2 ⟨hu, hdue⟩
    exact hcap a ha hcut
  · intro huses a ha hcut
    obtain ⟨hu, hdue⟩ := (connection_cut hm accepted made events _).1 ⟨a, ha, hcut, rfl⟩
    exact huses _ hu hdue

/-- One response, still being written ten seconds after its start. -/
def single : List Event :=
  [.arm 0, .op ⟨0, 0, 0, 0⟩ (.read (some 90)), .respond 0 false, .op ⟨secs 5, secs 5, secs 5, secs 5⟩ (.write (some 8192)),
    .op ⟨secs 10, secs 10, secs 10, secs 10⟩ (.write (some 8192))]

theorem connection_capped_single :
    0 < 10 ∧ ∀ a ∈ connection 0 0 10 single, a.result = .error .transferDeadline →
      ∃ start, a.inFlight = some start ∧ start + secs 10 ≤ a.at' := by
  refine ⟨by decide, (connection_capped (by decide) 0 0 single).2 fun u hu hdue => ?_⟩
  simp only [single, uses, List.mem_cons, List.not_mem_nil, or_false] at hu
  rcases hu with rfl | rfl | rfl
  · simp only [secs] at hdue
    omega
  · exact ⟨0, rfl, hdue⟩
  · exact ⟨0, rfl, hdue⟩

/-- A response written at once, an idle gap, and a second response that starts nine seconds in. -/
def reused : List Event :=
  [.arm 0, .op ⟨0, 0, 0, 0⟩ (.read (some 90)), .respond 0 false, .op ⟨0, 0, 0, 0⟩ (.write (some 1200)), .arm (secs 1),
    .op ⟨secs 1, secs 1, secs 9, secs 9⟩ (.read (some 90)), .respond (secs 9) false,
    .op ⟨secs 10, secs 10, secs 10, secs 10⟩ (.write (some 1200))]

/-- The second response is cut one second after its start. -/
theorem connection_capped_reused :
    ¬ ∀ a ∈ connection 0 0 10 reused, a.result = .error .transferDeadline →
      ∃ start, a.inFlight = some start ∧ start + secs 10 ≤ a.at' := by
  intro hcap
  have hmem : ⟨secs 10, some (secs 9), .error .transferDeadline⟩ ∈ connection 0 0 10 reused :=
    List.mem_of_getLast? rfl
  obtain ⟨start, hstart, hle⟩ := hcap _ hmem rfl
  rw [Option.some.injEq] at hstart
  simp only [← hstart, secs] at hle
  omega

end BareServer
