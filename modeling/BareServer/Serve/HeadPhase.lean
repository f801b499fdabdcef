/-
The request loop over time (`main.rs`, `serve_over`, over a `DeadlineIo`): where it stands, what is done with the
socket there, and which of it the deadline of a head bounds. Reading the stream is any number of uses of the socket,
since TLS gives control back with a whole record only.
-/
import BareServer.Serve.Deadline
import BareServer.Serve.Loop

namespace BareServer

open BareServer.Lib

/-! ## The loop -/

/-- The loop while it waits for the head of request `reqs`. `armed` is the time read to bound the wait; no step reads
it again. -/
structure Awaiting where
  reqs : Nat
  buf : Bytes
  scanned : Nat
  headStart : Option Nat
  armed : Nat

/-- Where the loop stands: before a request, before a search for the end of a head, in a read of the stream, in
the write of an error of its own, in `handle_request`, or past its return. -/
inductive Place where
  | top (reqs : Nat) (buf : Bytes)
  | search (a : Awaiting)
  | read (a : Awaiting)
  | refuse (resp : StatusResponse)
  | respond (reqs : Nat) (buf : Bytes) (headEnd : Nat)
  | closed

namespace Awaiting

/-- The head has taken too long, by one reading of the clock, or the connection has, by another. -/
def overdue (a : Awaiting) (connDeadline elapsed now : Nat) : Bool :=
  a.headStart.any (fun t0 => decide (secs headerTimeoutSecs ≤ elapsed - t0)) || decide (connDeadline ≤ now)

/-- One search: where the loop goes from it. -/
def look (a : Awaiting) (errs : ErrorPages) (connDeadline elapsed now : Nat) : Place :=
  match find (a.buf.drop (a.scanned - 3)) crlfcrlf with
  | some pos =>
    let headEnd := a.scanned - 3 + pos + 4
    if headEnd > maxHeaderBytes then .refuse errs.headersTooLarge else .respond a.reqs a.buf headEnd
  | none =>
    if a.buf.length ≥ maxHeaderBytes then .refuse errs.headersTooLarge
    else if a.overdue connDeadline elapsed now then .refuse errs.requestTimeout
    else .read { a with scanned := a.buf.length }

/-- Bytes have come, the first of them at `now` if none had before. -/
def arrive (a : Awaiting) (bytes : Bytes) (now : Nat) : Awaiting :=
  { a with buf := a.buf ++ bytes, headStart := some (a.headStart.getD now) }

end Awaiting

/-- The end of the phase of a head that is armed at `now`. -/
def headDeadline (connDeadline now : Nat) : Nat := min connDeadline (now + secs (ioTimeoutSecs + headerTimeoutSecs))

/-- What the socket is used for: a head whose phase was armed at some time, an error of the loop's own, or what
`handle_request` writes. -/
inductive Purpose where
  | head (armed : Nat)
  | refusal
  | response
  deriving DecidableEq

def Place.purpose : Place → Option Purpose
  | .read a => some (.head a.armed)
  | .refuse _ => some .refusal
  | .respond .. => some .response
  | _ => none

/-- One use of the socket, with what came of it. -/
structure SocketUse where
  purpose : Purpose
  clock : Clock
  op : Op
  result : Except IoError Nat

/-- The socket below was called. -/
def SocketUse.Called (u : SocketUse) : Prop := u.result = .error .socket ∨ ∃ n, u.result = .ok n

/-- The steps of a connection accepted at one time, with the uses of the socket they make. Each reading of the clock
is any. -/
inductive LoopStep (errs : ErrorPages) (connDeadline : Nat) : Place × DeadlineIo → List SocketUse → Place × DeadlineIo → Prop
  | out {reqs : Nat} {buf : Bytes} {io : DeadlineIo} (now : Nat) (h : maxReqsPerConn ≤ reqs ∨ connDeadline ≤ now) :
      LoopStep errs connDeadline (.top reqs buf, io) [] (.closed, io)
  | arm {reqs : Nat} {buf : Bytes} {io : DeadlineIo} (now armed first : Nat) (hreqs : reqs < maxReqsPerConn)
      (hnow : now < connDeadline) :
      LoopStep errs connDeadline (.top reqs buf, io) []
        (.search ⟨reqs, buf, 0, if buf.isEmpty then none else some first, armed⟩,
          { io with phase := some (headDeadline connDeadline armed) })
  | wait {a a' : Awaiting} {io : DeadlineIo} (elapsed now : Nat) (h : a.look errs connDeadline elapsed now = .read a') :
      LoopStep errs connDeadline (.search a, io) [] (.read a', io)
  | refuse {a : Awaiting} {resp : StatusResponse} {io : DeadlineIo} (elapsed now : Nat)
      (h : a.look errs connDeadline elapsed now = .refuse resp) :
      LoopStep errs connDeadline (.search a, io) [] (.refuse resp, io)
  | disarm {a : Awaiting} {reqs headEnd : Nat} {buf : Bytes} {io : DeadlineIo} (elapsed now : Nat)
      (h : a.look errs connDeadline elapsed now = .respond reqs buf headEnd) :
      LoopStep errs connDeadline (.search a, io) [] (.respond reqs buf headEnd, { io with phase := none })
  | use {p : Place} {io : DeadlineIo} {purpose : Purpose} (h : p.purpose = some purpose) (c : Clock) (op : Op) :
      LoopStep errs connDeadline (p, io) [⟨purpose, c, op, (io.apply c op).1⟩] (p, (io.apply c op).2)
  | arrive {a : Awaiting} {io : DeadlineIo} (bytes : Bytes) (now : Nat) (h : bytes ≠ []) :
      LoopStep errs connDeadline (.read a, io) [] (.search (a.arrive bytes now), io)
  | readEnds {a : Awaiting} {io : DeadlineIo} : LoopStep errs connDeadline (.read a, io) [] (.closed, io)
  | refused {resp : StatusResponse} {io : DeadlineIo} : LoopStep errs connDeadline (.refuse resp, io) [] (.closed, io)
  | responded {reqs headEnd : Nat} {buf : Bytes} {io : DeadlineIo} :
      LoopStep errs connDeadline (.respond reqs buf headEnd, io) [] (.top (reqs + 1) (buf.drop headEnd), io)
  | responseEnds {reqs headEnd : Nat} {buf : Bytes} {io : DeadlineIo} :
      LoopStep errs connDeadline (.respond reqs buf headEnd, io) [] (.closed, io)

/-- Any number of steps. -/
inductive LoopRun (errs : ErrorPages) (connDeadline : Nat) : Place × DeadlineIo → List SocketUse → Place × DeadlineIo → Prop
  | refl (s : Place × DeadlineIo) : LoopRun errs connDeadline s [] s
  | tail {s s' s'' : Place × DeadlineIo} {uses more : List SocketUse} (h : LoopRun errs connDeadline s uses s')
      (hstep : LoopStep errs connDeadline s' more s'') : LoopRun errs connDeadline s (uses ++ more) s''

/-! ## The phase -/

namespace DeadlineIo

variable {io : DeadlineIo} {c : Clock}

theorem checkRate_phase {io' : DeadlineIo} (h : io.checkRate c = .ok io') : io'.phase = io.phase := by
  unfold checkRate at h
  repeat' split at h
  all_goals cases h
  all_goals rfl

/-- No use of the socket moves the phase. -/
theorem apply_phase (op : Op) : (io.apply c op).2.phase = io.phase := by
  cases hcheck : io.check c with
  | error e => rw [apply_of_error hcheck]
  | ok u =>
    cases op with
    | read n =>
      simp only [apply, read, hcheck]
      cases n with
      | none => rfl
      | some n => simp only; split <;> rfl
    | write n =>
      simp only [apply, write, hcheck]
      cases h : io.checkRate c with
      | error e => rfl
      | ok io' =>
        have hkept := checkRate_phase h
        cases n <;> exact hkept
    | flush ok =>
      simp only [apply, flush, hcheck]
      cases h : io.checkRate c with
      | error e => rfl
      | ok io' => exact checkRate_phase h

/-- An operation fails by the phase only where one is armed. -/
theorem apply_not_head (hphase : io.phase = none) (op : Op) : (io.apply c op).1 ≠ .error .headDeadline := by
  cases hcheck : io.check c with
  | error e =>
    rw [apply_of_error hcheck]
    unfold check at hcheck
    rw [hphase] at hcheck
    rintro ⟨⟩
    split at hcheck <;> cases hcheck
  | ok u =>
    have hrate : ∀ {e : IoError}, io.checkRate c = .error e → (.error e : Except IoError Nat) ≠ .error .headDeadline := by
      intro e h heq
      cases checkRate_error h
      cases heq
    cases op with
    | read n =>
      simp only [apply, read, hcheck]
      cases n <;> exact fun h => by cases h
    | write n =>
      simp only [apply, write, hcheck]
      cases h : io.checkRate c with
      | error e => exact hrate h
      | ok io' => cases n <;> exact fun h => by cases h
    | flush ok =>
      simp only [apply, flush, hcheck]
      cases h : io.checkRate c with
      | error e => exact hrate h
      | ok io' => cases ok <;> exact fun h => by cases h

/-- A read that calls the socket has found the clock before the end of the phase. -/
theorem read_before_phase {n : Option Nat} {at' : Nat} (hphase : io.phase = some at')
    (h : (io.apply c (.read n)).1 = .error .socket ∨ ∃ m, (io.apply c (.read n)).1 = .ok m) : c.phase < at' := by
  cases hcheck : io.check c with
  | error e =>
    rw [apply_of_error hcheck] at h
    unfold check at hcheck
    rcases h with h | ⟨m, h⟩
    · cases h
      repeat' split at hcheck
      all_goals cases hcheck
    · cases h
  | ok u =>
    unfold check at hcheck
    rw [hphase] at hcheck
    by_contra hlate
    rw [Option.any_some, decide_eq_true (Nat.not_lt.1 hlate), if_pos rfl] at hcheck
    split at hcheck <;> cases hcheck

end DeadlineIo

/-! ## Every run -/

/-- While a head is waited for, its phase is armed; while `handle_request` writes, none is. -/
def HeadPhased (connDeadline : Nat) : Place × DeadlineIo → Prop
  | (.search a, io) | (.read a, io) => io.phase = some (headDeadline connDeadline a.armed)
  | (.respond .., io) => io.phase = none
  | _ => True

/-- What the phase bounds, and what it does not. -/
def SocketUse.Bounded (connDeadline : Nat) (u : SocketUse) : Prop :=
  (∀ armed n, u.purpose = .head armed → u.op = .read n → u.Called → u.clock.phase < headDeadline connDeadline armed) ∧
    (u.purpose = .response → u.result ≠ .error .headDeadline)

section

variable {errs : ErrorPages} {connDeadline : Nat} {s s' : Place × DeadlineIo} {uses : List SocketUse}

/-- A search keeps the time that its phase was armed at. -/
theorem Awaiting.look_armed {a a' : Awaiting} {elapsed now : Nat} (h : a.look errs connDeadline elapsed now = .read a') :
    a'.armed = a.armed := by
  unfold Awaiting.look at h
  cases hfind : find (a.buf.drop (a.scanned - 3)) crlfcrlf with
  | some pos =>
    rw [hfind] at h
    dsimp only at h
    split at h <;> cases h
  | none =>
    rw [hfind] at h
    dsimp only at h
    repeat' split at h
    all_goals cases h
    rfl

theorem LoopStep.phased (h : LoopStep errs connDeadline s uses s') (hs : HeadPhased connDeadline s) : HeadPhased connDeadline s' := by
  cases h with
  | out | refuse | refused | readEnds | responded | responseEnds => trivial
  | arm | disarm => rfl
  | wait elapsed now h =>
    simp only [HeadPhased] at hs ⊢
    rw [hs, Awaiting.look_armed h]
  | arrive bytes now h => exact hs
  | @use p io purpose h c op =>
    cases p with
    | top | refuse | closed => trivial
    | search a | read a | respond reqs buf headEnd => exact (DeadlineIo.apply_phase op).trans hs

theorem LoopStep.bounded (h : LoopStep errs connDeadline s uses s') (hs : HeadPhased connDeadline s) :
    ∀ u ∈ uses, u.Bounded connDeadline := by
  cases h with
  | @use p io purpose h c op =>
    rintro u hu
    rw [List.mem_singleton.1 hu]
    constructor
    · rintro armed n rfl rfl hcalled
      cases p with
      | read a =>
        cases h
        exact DeadlineIo.read_before_phase hs hcalled
      | top | search | refuse | respond | closed => cases h
    · rintro rfl
      cases p with
      | respond reqs buf headEnd => exact DeadlineIo.apply_not_head hs op
      | top | search | read | refuse | closed => cases h
  | _ => exact List.forall_mem_nil _

theorem LoopRun.phased (h : LoopRun errs connDeadline s uses s') (hs : HeadPhased connDeadline s) :
    HeadPhased connDeadline s' ∧ ∀ u ∈ uses, u.Bounded connDeadline := by
  induction h with
  | refl => exact ⟨hs, List.forall_mem_nil _⟩
  | tail _ hstep ih =>
    obtain ⟨hs', huses⟩ := ih
    exact ⟨hstep.phased hs', List.forall_mem_append.2 ⟨huses, hstep.bounded hs'⟩⟩

end

/-- A connection whose `DeadlineIo` is made at some time under a config's cap, with the bytes that came before it. -/
def begun (made maxResponseSecs : Nat) (buf : Bytes) : Place × DeadlineIo :=
  (.top 0 buf, .new made (maxTransfer maxResponseSecs))

/-- On a connection accepted at a time, no read of a head calls the socket once 300 seconds have passed since then, or
25 since the phase of that head was armed; and nothing done in `handle_request` is failed by the deadline of a head. -/
theorem head_phase_bounded {errs : ErrorPages} {accepted made maxResponseSecs : Nat} {buf : Bytes} {uses : List SocketUse}
    {s : Place × DeadlineIo} (h : LoopRun errs (accepted + secs connMaxSecs) (begun made maxResponseSecs buf) uses s) :
    ∀ u ∈ uses,
      (∀ armed n, u.purpose = .head armed → u.op = .read n → u.Called →
        u.clock.phase < min (accepted + secs 300) (armed + secs 25)) ∧
      (u.purpose = .response → u.result ≠ .error .headDeadline) :=
  (h.phased trivial).2

/-- A read of one byte at `n` seconds, for a head armed at the connection's start. -/
def dribble (n : Nat) : SocketUse := ⟨.head 0, ⟨secs n, secs n, secs n, secs n⟩, .read (some 1), .ok 1⟩

/-- A byte at nine seconds and one at eighteen, in one read of the stream. -/
theorem head_phase_bounded_dribble :
    ((∀ armed n, (dribble 18).purpose = .head armed → (dribble 18).op = .read n → (dribble 18).Called →
        (dribble 18).clock.phase < min (0 + secs 300) (armed + secs 25)) ∧
      ((dribble 18).purpose = .response → (dribble 18).result ≠ .error .headDeadline)) ∧ (dribble 18).Called := by
  have harm : LoopRun (.new []) (0 + secs connMaxSecs) (begun 0 0 []) _ _ :=
    (LoopRun.refl _).tail (.arm 0 0 0 (by decide) (by decide))
  have hwait := harm.tail (.wait 0 0 rfl)
  have hfirst := hwait.tail (.use rfl (dribble 9).clock (dribble 9).op)
  have hsecond := hfirst.tail (.use rfl (dribble 18).clock (dribble 18).op)
  exact ⟨head_phase_bounded hsecond (dribble 18) (List.mem_of_getLast? rfl), .inr ⟨1, rfl⟩⟩

end BareServer
