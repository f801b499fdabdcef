/-
The backoff of failed reloads (`main.rs`, `watch`): a retry is timed exactly while a failure is recorded, and what
is recorded is the failure of the version of the config that the last tick read. A version that the last tick was
the first to read is retried within one interval.
-/
import BareServer.Watch.Renewal

namespace BareServer

open BareServer.Lib

variable {h : Nat → World} {c : Crates} {path : Str} {i : Nat}

/-! ## The retry state -/

/-- Two watchers with one retry state and one config file. -/
structure SameRetry (w w' : Watcher) : Prop where
  configPath : w'.configPath = w.configPath
  retryAt : w'.retryAt = w.retryAt
  backoff : w'.backoff = w.backoff
  failedAt : w'.failedAt = w.failedAt

theorem SameRetry.refl (w : Watcher) : SameRetry w w := ⟨rfl, rfl, rfl, rfl⟩

theorem SameRetry.trans {a b d : Watcher} (hab : SameRetry a b) (hbd : SameRetry b d) : SameRetry a d :=
  ⟨hbd.configPath.trans hab.configPath, hbd.retryAt.trans hab.retryAt, hbd.backoff.trans hab.backoff,
    hbd.failedAt.trans hab.failedAt⟩

/-- A retry is timed exactly when a failure is recorded. -/
def Watcher.Timed (w : Watcher) : Prop := w.retryAt.isSome ↔ w.failedAt.isSome

theorem SameRetry.timed {w w' : Watcher} (hs : SameRetry w w') (hw : w.Timed) : w'.Timed := by
  unfold Watcher.Timed
  rw [hs.retryAt, hs.failedAt]
  exact hw

/-- The retry state fits a version of the config: the failure is one of that version, and without one the backoff is
the interval of the ticks. -/
structure Backed (w : Watcher) (sig : UInt64) : Prop where
  timed : w.Timed
  fresh : w.failedAt = none → w.backoff = watchInterval
  version : ∀ s, w.failedAt = some s → s.1 = sig

theorem SameRetry.backed {w w' : Watcher} {sig : UInt64} (hs : SameRetry w w') (hw : Backed w sig) : Backed w' sig := by
  refine ⟨hs.timed hw.timed, ?_, ?_⟩
  · rw [hs.failedAt, hs.backoff]
    exact hw.fresh
  · rw [hs.failedAt]
    exact hw.version

theorem Backed.retryAt {w : Watcher} {sig : UInt64} (hw : Backed w sig) (hf : w.failedAt = none) : w.retryAt = none := by
  have ht := hw.timed
  rw [Watcher.Timed, hf] at ht
  exact Option.not_isSome_iff_eq_none.1 fun hs => by simpa using ht.1 hs

/-- What is published keeps the retry state consistent. -/
def TimedPublication (_ : Nat) (p : Publication) : Prop := p.watcher.Timed

/-! ## Each part of a tick -/

/-- The reset: what is left of a failure is one of the version that is read now, and a new version leaves none. -/
theorem resetBackoff_backed {w : Watcher} {sig cfgNow tlsNow : UInt64} (hw : Backed w sig) :
    (resetBackoff w cfgNow tlsNow).configPath = w.configPath ∧ Backed (resetBackoff w cfgNow tlsNow) cfgNow ∧
      (cfgNow ≠ sig → (resetBackoff w cfgNow tlsNow).failedAt = none) := by
  unfold resetBackoff
  cases hf : w.failedAt with
  | none => exact ⟨rfl, ⟨hw.timed, hw.fresh, fun s hs => by rw [hf] at hs; cases hs⟩, fun _ => hf⟩
  | some s =>
    dsimp only
    split
    · exact ⟨rfl, ⟨Iff.rfl, fun _ => rfl, fun _ hs => by cases hs⟩, fun _ => rfl⟩
    · rename_i hsame
      have hs : s = (cfgNow, tlsNow) := Decidable.not_not.1 hsame
      refine ⟨rfl, ⟨hw.timed, hw.fresh, fun s' hs' => ?_⟩, fun hne => absurd ?_ hne⟩
      · rw [hf, Option.some.injEq] at hs'
        rw [← hs', hs]
      · rw [← hw.version s hf, hs]

theorem httpsAt_retry (w : Watcher) (addr : Str) : SameRetry w (w.httpsAt addr) := by
  unfold Watcher.httpsAt
  split
  · exact .refl w
  · constructor <;> rfl

theorem httpAt_retry (w : Watcher) (want : Option Str) : SameRetry w (w.httpAt want) := by
  unfold Watcher.httpAt
  repeat' split
  · exact .refl w
  · constructor <;> rfl
  · constructor <;> rfl
  · constructor <;> rfl
  · exact .refl w

theorem reconcile_retry (a : Armed) (i : Nat) :
    Obs.Holds h (fun _ _ => False) (reconcile a) i fun b _ => SameRetry a.watcher b.watcher := by
  refine reconcile_holds (fun _ => .refl _) (fun _ _ _ _ _ _ => .refl _) (fun x _ _ _ _ _ _ _ => httpsAt_retry _ x)
    fun x y _ _ _ _ _ _ => ?_
  have hpending : SameRetry ((a.watcher.httpsAt x).httpAt y) { (a.watcher.httpsAt x).httpAt y with pending := none } := by
    constructor <;> rfl
  exact ((httpsAt_retry _ x).trans (httpAt_retry _ y)).trans hpending

/-- The arms change nothing of it. -/
theorem takeArm_retry {w : Watcher} (r : Readings) (hw : w.Timed) :
    Obs.Holds h TimedPublication (takeArm c w r) i fun a _ => SameRetry w a.watcher := by
  unfold takeArm
  split
  · refine reload_holds (fun seq e k _ => ⟨rfl, rfl, rfl, rfl⟩) ?_
    intro cfg s rt seq order applied last j k l _ _ _ _ _ _ _
    exact ⟨hw, fun _ _ _ => ⟨rfl, rfl, rfl, rfl⟩⟩
  · split
    · exact reloadTls_holds (fun e k _ => .refl w) fun cfg tls k _ _ _ => ⟨hw, ⟨rfl, rfl, rfl, rfl⟩⟩
    · rw [Obs.holds_pure]
      exact .refl w

/-- What a tick leaves of the retry state after its decision: as it was; cleared; or a failure of the version that it
read, to be retried the old backoff after some moment of it. -/
inductive RetryAfter (h : Nat → World) (w : Watcher) (cfgNow : UInt64) (i : Nat) (w' : Watcher) (j : Nat) : Prop
  | idle (hs : SameRetry w w')
  | cleared (hr : w'.retryAt = none) (hf : w'.failedAt = none) (hb : w'.backoff = watchInterval)
  | failed (m : Nat) (tlsNow : UInt64) (him : i ≤ m) (hmj : m < j) (hf : w'.failedAt = some (cfgNow, tlsNow))
      (hr : w'.retryAt = some ((h m).now + w.backoff))

theorem settle_settled {w : Watcher} {a : Armed} {cfgNow : UInt64} {j : Nat} (hs : SameRetry w a.watcher) (hij : i ≤ j) :
    Obs.Holds h (fun _ _ => False) (settle cfgNow a) j fun b k =>
      b.watcher.configPath = w.configPath ∧ RetryAfter h w cfgNow i b.watcher k := by
  unfold settle
  cases a.failure with
  | none =>
    rw [Obs.holds_pure]
    exact ⟨hs.configPath, .cleared rfl rfl rfl⟩
  | some e =>
    simp only [Obs.holds_bind, Obs.holds_view, Obs.holds_pure]
    refine ⟨hs.configPath, .failed j a.tlsNow hij (Nat.lt_succ_self j) rfl ?_⟩
    rw [← hs.backoff]

theorem applyInputs_settled {w : Watcher} {r : Readings} {sig : UInt64} (hw : Backed w sig) :
    Obs.Holds h TimedPublication (applyInputs c w r) i fun a j => a.watcher.configPath = w.configPath ∧
      RetryAfter h (resetBackoff w r.cfgNow r.tlsNow) r.cfgNow i a.watcher j := by
  obtain ⟨hpath, hreset, -⟩ := @resetBackoff_backed _ _ r.cfgNow r.tlsNow hw
  unfold applyInputs
  dsimp only
  generalize resetBackoff w r.cfgNow r.tlsNow = w1 at hpath hreset
  rw [← hpath]
  split
  · refine (takeArm_retry r hreset.timed).moments.bind fun a j ha => ?_
    refine (reconcile_retry a j).silent.moments.bind fun b k hb => ?_
    exact (settle_settled (ha.1.trans hb.1) (ha.2.trans hb.2)).silent
  · rw [Obs.holds_pure]
    exact ⟨rfl, .idle (.refl w1)⟩

theorem RetryAfter.backed {w w' : Watcher} {cfgNow : UInt64} {j : Nat} (hs : RetryAfter h w cfgNow i w' j)
    (hw : Backed w cfgNow) : Backed w' cfgNow := by
  cases hs with
  | idle hs => exact hs.backed hw
  | cleared hr hf hb =>
    refine ⟨?_, fun _ => hb, fun s h => ?_⟩
    · rw [Watcher.Timed, hr, hf]
      exact Iff.rfl
    · rw [hf] at h
      cases h
  | failed m tlsNow _ _ hf hr =>
    refine ⟨?_, fun h => ?_, fun s h => ?_⟩
    · rw [Watcher.Timed, hr, hf]
      exact ⟨fun _ => rfl, fun _ => rfl⟩
    · rw [hf] at h
      cases h
    · rw [hf, Option.some.injEq] at h
      rw [← h]

/-- A retry, if there is one, is timed one interval after a moment that is over. -/
def Soon (h : Nat → World) (w : Watcher) (j : Nat) : Prop :=
  ∀ t, w.retryAt = some t → ∃ m, m < j ∧ t = (h m).now + watchInterval

/-- After a tick that found no failure to keep, a retry is soon. -/
theorem RetryAfter.soon {w w' : Watcher} {cfgNow : UInt64} {j : Nat} (hs : RetryAfter h w cfgNow i w' j)
    (hw : Backed w cfgNow) (hf : w.failedAt = none) : Soon h w' j := by
  intro t ht
  cases hs with
  | idle hs =>
    rw [hs.retryAt, hw.retryAt hf] at ht
    cases ht
  | cleared hr =>
    rw [hr] at ht
    cases ht
  | failed m tlsNow _ hmj _ hr =>
    rw [hr, Option.some.injEq, hw.fresh hf] at ht
    exact ⟨m, hmj, ht.symm⟩

theorem scan_retry {w : Watcher} (hw : w.Timed) :
    Obs.Holds h TimedPublication (scan c w) i fun w' _ => SameRetry w w' ∧ w'.cfgLast = w.cfgLast := by
  refine scan_holds (P := fun _ w' _ => SameRetry w w' ∧ w'.cfgLast = w.cfgLast) (fun _ _ => ⟨.refl w, rfl⟩) ?_
    fun _ _ _ hP => hP
  intro order sigs targets j _ _ done t rest _ w' k _ hP
  have hsame : ∀ {w2 : Watcher}, SameRetry w' w2 → w2.cfgLast = w'.cfgLast → SameRetry w w2 ∧ w2.cfgLast = w.cfgLast :=
    fun hs hl => ⟨hP.1.trans hs, hl.trans hP.2⟩
  refine scanSite_holds (fun seq failed m _ => hsame ⟨rfl, rfl, rfl, rfl⟩ rfl) fun cache total seq _ _ => ?_
  exact ⟨hP.1.timed hw, hsame ⟨rfl, rfl, rfl, rfl⟩ rfl⟩

/-! ## A tick -/

/-- A tick: the version it read is the last one and the retry state fits it; and where no tick before had read it,
a retry is soon. -/
theorem tick_backed {w : Watcher} (hw : Backed w w.cfgLast) :
    Obs.Holds h TimedPublication (tick c w) i fun w' j => w'.configPath = w.configPath ∧
      w'.cfgLast = fileSignature ((h i).info w.configPath) ∧ Backed w' w'.cfgLast ∧
      (w'.cfgLast ≠ w.cfgLast → Soon h w' j) := by
  obtain ⟨r, j, hread, hsig, hij⟩ := readInputs_run h w i
  obtain ⟨-, hreset, hnew⟩ := @resetBackoff_backed _ _ r.cfgNow r.tlsNow hw
  -- what the decision leaves is kept to the end of the tick
  let Kept (w' : Watcher) (k : Nat) : Prop := w'.configPath = w.configPath ∧ Backed w' r.cfgNow ∧
    (r.cfgNow ≠ w.cfgLast → Soon h w' k)
  have hkept : ∀ {w1 w2 : Watcher} {k l : Nat}, Kept w1 k → SameRetry w1 w2 → k ≤ l → Kept w2 l := by
    intro w1 w2 k l hk hs hkl
    refine ⟨hs.configPath.trans hk.1, hs.backed hk.2.1, fun hne t ht => ?_⟩
    rw [hs.retryAt] at ht
    obtain ⟨m, hm, heq⟩ := hk.2.2 hne t ht
    exact ⟨m, by omega, heq⟩
  refine tick_holds (P := fun w' _ k => Kept w' k) (Q := fun w' k => Kept w' k ∧ w'.cfgLast = r.cfgNow) hread
    ((applyInputs_settled hw).post fun a k ha => ⟨ha.1, ha.2.backed hreset, fun hne => ha.2.soon hreset (hnew hne)⟩)
    (fun w1 t k hP => ⟨hP.2.1.timed, hkept hP ⟨rfl, rfl, rfl, rfl⟩ (Nat.le_succ k), rfl⟩) fun w1 k hQ => ?_
  refine (scan_retry hQ.1.2.1.timed).moments.post fun w2 l hl => ?_
  have hlast : w2.cfgLast = r.cfgNow := hl.1.2.trans hQ.2
  have hend := hkept hQ.1 hl.1.1 (hl.2.trans (Nat.le_succ l))
  rw [hlast]
  exact ⟨hend.2.1.timed, hend.1, hsig, hend.2⟩

/-! ## Runs -/

theorem boot_backed (h : Nat → World) (c : Crates) (path : Str) :
    Obs.Holds h TimedPublication (boot c path) 0 fun x _ => ∀ w, x = .ok w → Backed w w.cfgLast := by
  refine boot_holds fun cfg s rt seq https http loops j k l _ _ _ _ _ _ _ => ?_
  unfold watchInit fileSignatureOf
  rw [Obs.holds_bind, Obs.holds_view]
  refine (rootLinksOf_silent path _).silent.bind fun links j _ => ?_
  refine (tlsSignatureOf_silent s.tlsFiles j).silent.bind fun tls k _ => ?_
  rw [Obs.holds_bind, Obs.holds_view]
  refine (freshTrees_silent _).silent.bind fun last l _ => ?_
  dsimp only
  rw [Obs.holds_bind, Obs.holds_publish, Obs.holds_pure]
  exact ⟨Iff.rfl, Iff.rfl, fun _ => rfl, fun _ hs => by cases hs⟩

/-- Every state of a run, and what each tick in it has read. -/
theorem reached_backed {w : Watcher} {j : Nat} (hw : Backed w w.cfgLast) (k : Nat) :
    Backed (Obs.reached h (tick c) k w j).1 (Obs.reached h (tick c) k w j).1.cfgLast ∧
      (Obs.reached h (tick c) k w j).1.configPath = w.configPath := by
  induction k with
  | zero => exact ⟨hw, rfl⟩
  | succ k ih =>
    rw [Obs.reached_succ]
    have htick := (tick_backed (h := h) (c := c) (i := (Obs.reached h (tick c) k w j).2) ih.1).2
    exact ⟨htick.2.2.1, htick.1.trans ih.2⟩

/-- What is read of the config file: by the opening of `watch`, which leaves the state `w` at `j`, and by each tick
after it. -/
def configValue (h : Nat → World) (c : Crates) (w : Watcher) (j : Nat) : Nat → UInt64
  | 0 => w.cfgLast
  | k + 1 => fileSignature ((h (Obs.reached h (tick c) k w j).2).info w.configPath)

theorem reached_cfgLast {w : Watcher} {j : Nat} (hw : Backed w w.cfgLast) (k : Nat) :
    (Obs.reached h (tick c) k w j).1.cfgLast = configValue h c w j k := by
  cases k with
  | zero => rfl
  | succ k =>
    obtain ⟨hk, hpath⟩ := reached_backed (h := h) (c := c) (j := j) hw k
    rw [Obs.reached_succ, configValue, ← hpath]
    exact (tick_backed hk).2.2.1

/-- The clock at the start of a tick is two seconds on from the last moment before it. -/
def Rested (h : Nat → World) (_ : Watcher) (i : Nat) : Prop := (h (i - 1)).now + watchInterval ≤ (h i).now

instance (w : Watcher) (i : Nat) : Decidable (Rested h w i) := inferInstanceAs (Decidable (_ ≤ _))

/-- A tick that starts when its retry is over is due. -/
theorem readInputs_due (hclock : Monotone fun k => (h k).now) {w : Watcher} (hw : ∀ t, w.retryAt = some t → t ≤ (h i).now) :
    Obs.Holds h (fun _ _ => False) (readInputs w) i fun r _ => r.due = true := by
  have hreset : ∀ a b t, (resetBackoff w a b).retryAt = some t → t ≤ (h i).now := by
    intro a b t ht
    unfold resetBackoff at ht
    split at ht
    · split at ht
      · cases ht
      · exact hw t ht
    · exact hw t ht
  unfold readInputs fileSignatureOf
  rw [Obs.holds_bind, Obs.holds_view]
  refine (tlsSignatureOf_silent _ _).moments.bind fun tlsNow j hj => ?_
  refine (rootLinksOf_silent _ _).moments.bind fun _ k hk => ?_
  split
  · rw [Obs.holds_pure]
  · rename_i t ht
    rw [Obs.holds_bind, Obs.holds_view, Obs.holds_pure]
    have hlater : (h i).now ≤ (h k).now := hclock (by omega)
    exact decide_eq_true ((hreset _ _ t ht).trans hlater)

/-- A tick takes the arm of the full reload, which loads the config first. -/
def AttemptsLoad (c : Crates) (h : Nat → World) (w : Watcher) (i : Nat) : Prop :=
  ∃ r j, (readInputs w).run h i = ⟨r, j, []⟩ ∧
    applyInputs c w r = (do
      settle r.cfgNow (← reconcile (← reload c (resetBackoff w r.cfgNow r.tlsNow) r.cfgNow r.tlsNow)))

/-- A due tick whose version of the config is the last one and not applied takes that arm. -/
theorem attemptsLoad_of_due {w : Watcher} (hdue : Obs.Holds h (fun _ _ => False) (readInputs w) i fun r _ => r.due = true)
    (happlied : fileSignature ((h i).info w.configPath) ≠ w.cfgApplied)
    (hlast : fileSignature ((h i).info w.configPath) = w.cfgLast) : AttemptsLoad c h w i := by
  obtain ⟨r, j, hread, hsig, -⟩ := readInputs_run h w i
  have hdue : r.due = true := hdue.of_run hread
  have hchanged : cfgChanged w r = true := by
    rw [cfgChanged, hsig, decide_eq_true happlied, decide_eq_true hlast]
    rfl
  refine ⟨r, j, hread, ?_⟩
  unfold applyInputs takeArm
  simp only [cfgChanged_resetBackoff, hchanged, hdue, Bool.true_and, Bool.true_or, if_true]

/-- No edit waits out the backoff of another version, in every run whose ticks start two seconds after the ones before
them: a tick that reads a version of the config which is not applied, which the tick before read too and the one before
that did not attempts to load it. And throughout, a retry is timed exactly when a failure is recorded. -/
theorem edit_attempted (c : Crates) (path : Str) (h : Nat → World) (n : Nat) (hclock : Monotone fun k => (h k).now)
    (hrested : EachTick c path h (Rested h) n) :
    (∀ e ∈ ((process c path n).run h 0).trace, (e.2.watcher.retryAt.isSome ↔ e.2.watcher.failedAt.isSome)) ∧
    ∀ w j l, (boot c path).run h 0 = ⟨.ok w, j, l⟩ → ∀ k, k + 1 < n →
      configValue h c w j (k + 2) ≠ (Obs.reached h (tick c) (k + 1) w j).1.cfgApplied →
      configValue h c w j (k + 2) = configValue h c w j (k + 1) →
      configValue h c w j (k + 2) ≠ configValue h c w j k →
      AttemptsLoad c h (Obs.reached h (tick c) (k + 1) w j).1 (Obs.reached h (tick c) (k + 1) w j).2 := by
  constructor
  · exact (process_holds (boot_backed h c path) (fun w i hw _ => (tick_backed hw).post fun _ _ hP => hP.2.2.1)
      (eachTick_of_forall (fun _ _ => trivial) n)).1
  · intro w j l hrun k hk happlied hlast hfirst
    have hw := (boot_backed h c path).of_run hrun w rfl
    obtain ⟨hbacked, -⟩ := reached_backed (h := h) (c := c) (j := j) hw k
    obtain ⟨-, hpath'⟩ := reached_backed (h := h) (c := c) (j := j) hw (k + 1)
    have hlast' := reached_cfgLast (h := h) (c := c) (j := j) hw (k + 1)
    have hbefore := reached_cfgLast (h := h) (c := c) (j := j) hw k
    have hrest := (hrested w j l hrun).get hk
    have hsoon : (Obs.reached h (tick c) (k + 1) w j).1.cfgLast ≠ (Obs.reached h (tick c) k w j).1.cfgLast →
        Soon h (Obs.reached h (tick c) (k + 1) w j).1 (Obs.reached h (tick c) (k + 1) w j).2 := by
      rw [Obs.reached_succ]
      exact (tick_backed hbacked).2.2.2.2
    -- the tick before was the first to read this version, so what it left to retry is over by now
    rw [hlast, ← hlast', ← hbefore] at hfirst
    rw [← hlast', configValue, ← hpath'] at hlast
    rw [configValue, ← hpath'] at happlied
    refine attemptsLoad_of_due (readInputs_due hclock fun t ht => ?_) happlied hlast
    obtain ⟨m, hm, rfl⟩ := hsoon hfirst t ht
    have hended : (h m).now ≤ (h ((Obs.reached h (tick c) (k + 1) w j).2 - 1)).now := hclock (by omega)
    exact (Nat.add_le_add_right hended _).trans hrest

/-- A config that does not parse, before the first tick, and its repair, before the third. -/
def repairedEdit (k : Nat) : World :=
  { World.small (if k < 14 then confOf [str "a.example"] else if k < 30 then str "site" else confOf [str "b.example"])
      (if k < 14 then 1 else if k < 30 then 2 else 3) 1 with now := k * watchInterval }

/-- The second tick fails; the fourth loads the repair. -/
theorem edit_attempted_repaired : ∃ w j l, (boot anyPem confPath).run repairedEdit 0 = ⟨.ok w, j, l⟩ ∧
    (Obs.reached repairedEdit (tick anyPem) 2 w j).1.failedAt.isSome = true ∧
    AttemptsLoad anyPem repairedEdit (Obs.reached repairedEdit (tick anyPem) 3 w j).1
      (Obs.reached repairedEdit (tick anyPem) 3 w j).2 := by
  have hclock : Monotone fun k => (repairedEdit k).now := fun a b hab => Nat.mul_le_mul_right watchInterval hab
  have hrested : EachTick anyPem confPath repairedEdit (Rested repairedEdit) 4 := eachTick_of_all (by decide +kernel)
  obtain ⟨w, j, l, hrun, hok⟩ := boot_of_any (c := anyPem) (h := repairedEdit) confPath (fun w j =>
    (Obs.reached repairedEdit (tick anyPem) 2 w j).1.failedAt.isSome &&
    decide (configValue repairedEdit anyPem w j 4 ≠ (Obs.reached repairedEdit (tick anyPem) 3 w j).1.cfgApplied ∧
      configValue repairedEdit anyPem w j 4 = configValue repairedEdit anyPem w j 3 ∧
      configValue repairedEdit anyPem w j 4 ≠ configValue repairedEdit anyPem w j 2)) (by decide +kernel)
  simp only [Bool.and_eq_true, decide_eq_true_eq] at hok
  obtain ⟨hfailed, happlied, hlast, hfirst⟩ := hok
  exact ⟨w, j, l, hrun, hfailed, (edit_attempted anyPem confPath repairedEdit 4 hclock hrested).2 w j l hrun 2 (by decide)
    happlied hlast hfirst⟩

end BareServer
