/-
The least rate of a response (`main.rs`, `DeadlineIo::check_rate`). The window is closed only when a write
is tried, and what that write delivers counts for the next one, so windows are of any length from the
nominal one to that and a gap. Every closed window has delivered its quota, and a transfer that delivers
the quota in every stretch of the nominal length is never refused.
-/
import BareServer.Serve.Deadline

namespace BareServer

/-! ## Timed attempts -/

/-- A write or a flush: when it is called, the clock it reads, and when it is done. -/
structure WriteAttempt where
  start : Nat
  clock : Clock
  op : Op
  done : Nat
  noRead : ∀ n, op ≠ .read n

/-- The clock is read in order, before anything is written, and at most `delay` after the call. -/
structure WriteAttempt.Prompt (delay : Nat) (a : WriteAttempt) : Prop where
  start_le : a.start ≤ a.clock.elapsed
  ordered : a.clock.elapsed ≤ a.clock.window
  window_le : a.clock.window ≤ a.start + delay
  done_ge : a.clock.window ≤ a.done

/-- Attempts one after the other, each called at most `gap` after the one before it; `start` and `done` are those
of an attempt before the first. -/
def Paced (gap delay : Nat) : Nat → Nat → List WriteAttempt → Prop
  | _, _, [] => True
  | start, done, a :: rest =>
    done ≤ a.start ∧ a.start ≤ start + gap ∧ a.Prompt delay ∧ Paced gap delay a.start a.done rest

/-- The attempts with what comes of them. -/
def answers : DeadlineIo → List WriteAttempt → List (WriteAttempt × Except IoError Nat)
  | _, [] => []
  | io, a :: rest => (a, (io.apply a.clock a.op).1) :: answers (io.apply a.clock a.op).2 rest

def bytesOf : Except IoError Nat → Nat
  | .ok n => n
  | .error _ => 0

/-- The bytes written. -/
def bytesWritten (as : List (WriteAttempt × Except IoError Nat)) : Nat := (as.map fun a => bytesOf a.2).sum

/-- The bytes of the writes done after `s`, and not after `e`. -/
def bytesWrittenIn (s e : Nat) (as : List (WriteAttempt × Except IoError Nat)) : Nat :=
  bytesWritten (as.filter fun a => s < a.1.done && a.1.done ≤ e)

/-! ## One attempt -/

/-- `m` is a count `base` with `n` more, or a count above the quota that has reached its end. -/
structure Credited (base n m : Nat) : Prop where
  le : m ≤ base + n
  ge : base + n ≤ m ∨ minProgressBytes ≤ m

theorem credited_saturatingAdd (base n : Nat) : Credited base n (DeadlineIo.saturatingAdd base n) := by
  unfold DeadlineIo.saturatingAdd
  refine ⟨Nat.min_le_left _ _, ?_⟩
  simp only [minProgressBytes]
  omega

/-- What an attempt can come to where only the rate is checked: it is refused, since the window is over and has
delivered too little; it counts in the window, which goes on; or it counts in a new one. -/
inductive Judged (io : DeadlineIo) (c : Clock) : Except IoError Nat → DeadlineIo → Prop
  | refused {next : DeadlineIo} (hover : secs progressTimeoutSecs ≤ c.elapsed - io.window)
      (hlow : io.moved < minProgressBytes) (h : next = io) : Judged io c (.error .belowRate) next
  | goesOn {r : Except IoError Nat} {m : Nat} (hin : c.elapsed - io.window < secs progressTimeoutSecs)
      (hr : r ≠ .error .belowRate) (hm : Credited io.moved (bytesOf r) m) : Judged io c r { io with moved := m }
  | rolled {r : Except IoError Nat} {m : Nat} (hover : secs progressTimeoutSecs ≤ c.elapsed - io.window)
      (hquota : minProgressBytes ≤ io.moved) (hr : r ≠ .error .belowRate) (hm : Credited 0 (bytesOf r) m) :
      Judged io c r { io with window := c.window, moved := m }

theorem judged_apply {io : DeadlineIo} (hd : io.deadline = none) (hp : io.phase = none) (a : WriteAttempt) :
    Judged io a.clock (io.apply a.clock a.op).1 (io.apply a.clock a.op).2 := by
  obtain ⟨start, c, op, done, hno⟩ := a
  have hcheck : io.check c = .ok () := by
    rw [DeadlineIo.check, hd, hp]
    rfl
  have hsame : ∀ base, Credited base 0 base := fun base => ⟨Nat.le_refl _, .inl (Nat.le_refl _)⟩
  have hsocket : ∀ n : Nat, (.ok n : Except IoError Nat) ≠ .error .belowRate := fun n h => by cases h
  have hfail : (.error .socket : Except IoError Nat) ≠ .error .belowRate := fun h => by cases h
  by_cases hover : secs progressTimeoutSecs ≤ c.elapsed - io.window
  · by_cases hlow : io.moved < minProgressBytes
    · have hrate : io.checkRate c = .error .belowRate := by rw [DeadlineIo.checkRate, if_pos hover, if_pos hlow]
      cases op with
      | read n => exact absurd rfl (hno n)
      | write n =>
        simp only [DeadlineIo.apply, DeadlineIo.write, hcheck, hrate]
        exact .refused hover hlow rfl
      | flush ok =>
        simp only [DeadlineIo.apply, DeadlineIo.flush, hcheck, hrate]
        exact .refused hover hlow rfl
    · have hrate : io.checkRate c = .ok { io with window := c.window, moved := 0 } := by
        rw [DeadlineIo.checkRate, if_pos hover, if_neg hlow]
      have hquota := Nat.not_lt.1 hlow
      cases op with
      | read n => exact absurd rfl (hno n)
      | write n =>
        simp only [DeadlineIo.apply, DeadlineIo.write, hcheck, hrate]
        cases n with
        | none => exact .rolled hover hquota hfail (hsame 0)
        | some n => exact .rolled hover hquota (hsocket n) (credited_saturatingAdd 0 n)
      | flush ok =>
        simp only [DeadlineIo.apply, DeadlineIo.flush, hcheck, hrate]
        cases ok with
        | true => exact .rolled hover hquota (hsocket 0) (hsame 0)
        | false => exact .rolled hover hquota hfail (hsame 0)
  · have hrate : io.checkRate c = .ok io := by rw [DeadlineIo.checkRate, if_neg hover]
    have hin := Nat.not_le.1 hover
    cases op with
    | read n => exact absurd rfl (hno n)
    | write n =>
      simp only [DeadlineIo.apply, DeadlineIo.write, hcheck, hrate]
      cases n with
      | none => exact .goesOn hin hfail (hsame io.moved)
      | some n => exact .goesOn hin (hsocket n) (credited_saturatingAdd io.moved n)
    | flush ok =>
      simp only [DeadlineIo.apply, DeadlineIo.flush, hcheck, hrate]
      cases ok with
      | true => exact .goesOn hin (hsocket 0) (hsame io.moved)
      | false => exact .goesOn hin hfail (hsame io.moved)

/-! ## Sums -/

section

variable {as bs : List (WriteAttempt × Except IoError Nat)} {a : WriteAttempt × Except IoError Nat} {s e : Nat}

theorem bytesWritten_cons : bytesWritten (a :: as) = bytesOf a.2 + bytesWritten as := by simp [bytesWritten]

theorem bytesWrittenIn_append : bytesWrittenIn s e (as ++ bs) = bytesWrittenIn s e as + bytesWrittenIn s e bs := by
  simp [bytesWrittenIn, bytesWritten]

theorem bytesWrittenIn_singleton_le : bytesWrittenIn s e [a] ≤ bytesOf a.2 := by
  unfold bytesWrittenIn bytesWritten
  rw [List.filter_cons]
  split <;> simp

/-- Nothing is counted of writes that were done before, or that failed. -/
theorem bytesWrittenIn_eq_zero (h : ∀ a ∈ as, a.1.done ≤ s ∨ bytesOf a.2 = 0) : bytesWrittenIn s e as = 0 := by
  unfold bytesWrittenIn bytesWritten
  rw [List.sum_eq_zero_iff]
  intro n hn
  obtain ⟨a, ha, rfl⟩ := List.mem_map.1 hn
  obtain ⟨hmem, hin⟩ := List.mem_filter.1 ha
  simp only [Bool.and_eq_true, decide_eq_true_eq] at hin
  rcases h a hmem with hle | hzero
  · omega
  · exact hzero

end

/-! ## What a transfer that goes on has delivered -/

section

variable {gap delay : Nat}

theorem progress_pos : 0 < secs progressTimeoutSecs := by decide

/-- One window more: a stretch that begins at most `D` later has at most one multiple of `D` less. -/
theorem div_succ_le {t w w' D : Nat} (hD : 0 < D) (h : w' ≤ w + D) : (t - w) / D ≤ (t - w') / D + 1 := by
  rw [← Nat.add_div_right _ hD]
  exact Nat.div_le_div_right (by omega)

/-- Counted from a window that was open at the last attempt, each stretch of the nominal length, a gap and a delay
has delivered its quota. -/
theorem quota_le_written {last : WriteAttempt} : ∀ (run : List WriteAttempt) {io : DeadlineIo} {start done : Nat},
    io.deadline = none → io.phase = none → start < io.window + secs progressTimeoutSecs → Paced gap delay start done run →
    (∀ x ∈ answers io run, x.2 ≠ .error .belowRate) → run.getLast? = some last →
    minProgressBytes * ((last.start - io.window) / (secs progressTimeoutSecs + gap + delay)) ≤
      io.moved + bytesWritten (answers io run)
  | [], io, start, done, _, _, _, _, _, hlast => by cases hlast
  | a :: rest, io, start, done, hd, hp, hstart, hpaced, hok, hlast => by
    obtain ⟨-, hgap, hprompt, hrest⟩ := hpaced
    have h30 := progress_pos
    have hnext := hprompt.start_le
    have hroll := hprompt.window_le
    have hord := hprompt.ordered
    have hjudged := judged_apply hd hp a
    rw [answers, List.forall_mem_cons] at hok
    have ih := fun io' => @quota_le_written last rest io' a.start a.done
    rw [answers, bytesWritten_cons]
    rcases rest with - | ⟨b, rest⟩
    · -- the last attempt is called within a gap of an open window
      obtain rfl : a = last := Option.some.inj hlast
      have hzero : (a.start - io.window) / (secs progressTimeoutSecs + gap + delay) = 0 :=
        Nat.div_eq_of_lt (by omega)
      rw [hzero]
      exact Nat.zero_le _
    · rw [List.getLast?_cons_cons] at hlast
      generalize io.apply a.clock a.op = next at hjudged hok ⊢
      obtain ⟨r, io'⟩ := next
      cases hjudged with
      | refused hover hlow => exact absurd rfl hok.1
      | @goesOn _ m hin _ hm =>
        have := ih { io with moved := m } hd hp (by simp only; omega) hrest hok.2 hlast
        have hle : m ≤ io.moved + bytesOf r := hm.le
        simp only at this ⊢
        omega
      | @rolled _ m hover hquota _ hm =>
        have := ih { io with window := a.clock.window, moved := m } hd hp (by simp only; omega) hrest hok.2 hlast
        have hle : m ≤ 0 + bytesOf r := hm.le
        have hwindows := @div_succ_le last.start io.window a.clock.window (secs progressTimeoutSecs + gap + delay) (by omega)
          (by omega)
        have hmul := Nat.mul_le_mul_left minProgressBytes hwindows
        rw [Nat.mul_succ] at hmul
        simp only at this ⊢
        omega

/-! ## A transfer that delivers -/

/-- After a refusal everything is refused. -/
theorem refused_after : ∀ (run : List WriteAttempt) {io : DeadlineIo} {start done : Nat}, io.deadline = none →
    io.phase = none → io.moved < minProgressBytes → io.window + secs progressTimeoutSecs ≤ done →
    Paced gap delay start done run → ∀ x ∈ answers io run, bytesOf x.2 = 0
  | [], io, start, done, _, _, _, _, _, x, hx => by cases hx
  | a :: rest, io, start, done, hd, hp, hlow, hover, hpaced, x, hx => by
    obtain ⟨hdone, -, hprompt, hrest⟩ := hpaced
    have hstart := hprompt.start_le
    have hord := hprompt.ordered
    have hge := hprompt.done_ge
    have hjudged := judged_apply hd hp a
    rw [answers] at hx
    generalize io.apply a.clock a.op = next at hjudged hx
    obtain ⟨r, io'⟩ := next
    cases hjudged with
    | refused _ _ hsame =>
      rcases List.mem_cons.1 hx with rfl | hx
      · rfl
      · exact refused_after rest hd hp hlow (by omega) hrest x (hsame ▸ hx)
    | goesOn hin => omega
    | rolled _ hquota => omega

/-- Where every stretch of the nominal length has its quota, counting what was written before, no attempt is refused:
the bytes of the open window are all that was written since it began. -/
theorem not_refused {begin : Nat} : ∀ (run : List WriteAttempt) {io : DeadlineIo} {start done : Nat}
    (past : List (WriteAttempt × Except IoError Nat)), io.deadline = none → io.phase = none → begin ≤ io.window →
    (∀ x ∈ past, x.1.done ≤ done) →
    (∀ e, bytesWrittenIn io.window e past ≤ io.moved ∨ minProgressBytes ≤ io.moved) → Paced gap delay start done run →
    (∀ s, begin ≤ s → (∃ a ∈ run, s + secs progressTimeoutSecs ≤ a.clock.elapsed) →
      minProgressBytes ≤ bytesWrittenIn s (s + secs progressTimeoutSecs) (past ++ answers io run)) →
    ∀ x ∈ answers io run, x.2 ≠ .error .belowRate
  | [], io, start, done, past, _, _, _, _, _, _, _, x, hx => by cases hx
  | a :: rest, io, start, done, past, hd, hp, hbegin, hpast, hmoved, hpaced, hquota, x, hx => by
    obtain ⟨hdone, -, hprompt, hrest⟩ := hpaced
    have h30 := progress_pos
    have hstart := hprompt.start_le
    have hord := hprompt.ordered
    have hge := hprompt.done_ge
    have hjudged := judged_apply hd hp a
    have hall : ∀ {io' : DeadlineIo} {r : Except IoError Nat}, io.apply a.clock a.op = (r, io') →
        past ++ answers io (a :: rest) = (past ++ [(a, r)]) ++ answers io' rest := by
      intro io' r h
      rw [answers, h, List.append_assoc]
      rfl
    have hpast' : ∀ r, ∀ x ∈ past ++ [(a, r)], x.1.done ≤ a.done := by
      intro r x hx
      rcases List.mem_append.1 hx with hx | hx
      · have := hpast x hx
        omega
      · rw [List.mem_singleton.1 hx]
    have hlater : ∀ s, begin ≤ s → (∃ b ∈ rest, s + secs progressTimeoutSecs ≤ b.clock.elapsed) →
        minProgressBytes ≤ bytesWrittenIn s (s + secs progressTimeoutSecs) (past ++ answers io (a :: rest)) :=
      fun s hs ⟨b, hb, hle⟩ => hquota s hs ⟨b, List.mem_cons_of_mem _ hb, hle⟩
    rw [answers] at hx
    generalize hnext : io.apply a.clock a.op = next at hjudged hx
    obtain ⟨r, io'⟩ := next
    rw [hall hnext] at hlater
    cases hjudged with
    | refused hover hlow hsame =>
      have hsame : io' = io := hsame
      -- the stretch that begins with the window has what the window has, and nothing is written after it
      have hafter := @refused_after _ _ rest _ a.start a.done hd hp hlow (by omega) hrest
      have hfull := hquota io.window hbegin ⟨a, List.mem_cons_self, by omega⟩
      rw [hall hnext, hsame, List.append_assoc, bytesWrittenIn_append, bytesWrittenIn_append] at hfull
      have hone := @bytesWrittenIn_singleton_le (a, .error .belowRate) io.window (io.window + secs progressTimeoutSecs)
      have hnone := @bytesWrittenIn_eq_zero (answers io rest) io.window (io.window + secs progressTimeoutSecs)
        fun x hx => .inr (hafter x hx)
      have hthis : bytesOf (.error .belowRate) = 0 := rfl
      have hthen := hmoved (io.window + secs progressTimeoutSecs)
      simp only at hone
      omega
    | @goesOn _ m hin hr hm =>
      rcases List.mem_cons.1 hx with rfl | hx
      · exact hr
      · refine @not_refused begin rest { io with moved := m } a.start a.done (past ++ [(a, r)]) hd hp hbegin (hpast' r)
          (fun e => ?_) hrest hlater x hx
        have hone := @bytesWrittenIn_singleton_le (a, r) io.window e
        have hthen := hmoved e
        have hcredit : io.moved + bytesOf r ≤ m ∨ minProgressBytes ≤ m := hm.ge
        simp only [bytesWrittenIn_append] at hone ⊢
        omega
    | @rolled _ m hover hfull hr hm =>
      rcases List.mem_cons.1 hx with rfl | hx
      · exact hr
      · refine @not_refused begin rest { io with window := a.clock.window, moved := m } a.start a.done (past ++ [(a, r)])
          hd hp (by simp only; omega) (hpast' r) (fun e => ?_) hrest hlater x hx
        have hone := @bytesWrittenIn_singleton_le (a, r) a.clock.window e
        have hnone := @bytesWrittenIn_eq_zero past a.clock.window e fun x hx => .inl (by have := hpast x hx; omega)
        have hcredit : 0 + bytesOf r ≤ m ∨ minProgressBytes ≤ m := hm.ge
        simp only [bytesWrittenIn_append] at hone ⊢
        omega

end

/-- From a window that begins with the run, writes called at most `gap` apart, that read their clock at most `delay`
late and of which none is refused, have delivered the quota for each nominal length, gap and delay before the last
of them; and where every stretch of the nominal length has its quota, none is refused. -/
theorem minimum_rate (begin gap delay : Nat) (run : List WriteAttempt) (h : Paced gap delay begin begin run) :
    (∀ last, run.getLast? = some last → (∀ x ∈ answers ⟨begin, 0, none, none⟩ run, x.2 ≠ .error .belowRate) →
      minProgressBytes * ((last.start - begin) / (secs progressTimeoutSecs + gap + delay)) ≤
        bytesWritten (answers ⟨begin, 0, none, none⟩ run)) ∧
    ((∀ s, begin ≤ s → (∃ a ∈ run, s + secs progressTimeoutSecs ≤ a.clock.elapsed) →
        minProgressBytes ≤ bytesWrittenIn s (s + secs progressTimeoutSecs) (answers ⟨begin, 0, none, none⟩ run)) →
      ∀ x ∈ answers ⟨begin, 0, none, none⟩ run, x.2 ≠ .error .belowRate) := by
  have h30 := progress_pos
  constructor
  · intro last hlast hok
    have hquota := @quota_le_written gap delay last run ⟨begin, 0, none, none⟩ begin begin rfl rfl (by simp only; omega) h hok hlast
    rwa [Nat.zero_add] at hquota
  · intro hquota
    exact not_refused run [] rfl rfl (Nat.le_refl begin) (List.forall_mem_nil _) (fun _ => .inl (Nat.le_refl 0)) h hquota

/-- A kilobyte written at once, `n` seconds in. -/
def kilobyteAt (n : Nat) : WriteAttempt where
  start := secs n
  clock := ⟨secs n, secs n, secs n, secs n⟩
  op := .write (some 1024)
  done := secs n
  noRead := nofun

/-- A kilobyte every ten seconds. -/
theorem minimum_rate_steady :
    minProgressBytes * ((secs 40 - 0) / (secs progressTimeoutSecs + secs 10 + 0)) ≤
      bytesWritten (answers ⟨0, 0, none, none⟩ [kilobyteAt 10, kilobyteAt 20, kilobyteAt 30, kilobyteAt 40]) := by
  have hpaced : Paced (secs 10) 0 0 0 [kilobyteAt 10, kilobyteAt 20, kilobyteAt 30, kilobyteAt 40] := by
    simp only [Paced, kilobyteAt, secs, and_true]
    exact ⟨by omega, by omega, ⟨by simp, by simp, by simp, by simp⟩, by omega, by omega, ⟨by simp, by simp, by simp, by simp⟩,
      by omega, by omega, ⟨by simp, by simp, by simp, by simp⟩, by omega, by omega, ⟨by simp, by simp, by simp, by simp⟩⟩
  refine (minimum_rate 0 (secs 10) 0 _ hpaced).1 (kilobyteAt 40) rfl fun x hx => ?_
  have hall : (answers ⟨0, 0, none, none⟩ [kilobyteAt 10, kilobyteAt 20, kilobyteAt 30, kilobyteAt 40]).map Prod.snd =
      List.replicate 4 (.ok 1024) := rfl
  have hx := List.mem_map_of_mem (f := Prod.snd) hx
  rw [hall] at hx
  rw [List.eq_of_mem_replicate hx]
  exact fun h => by cases h

end BareServer
