/-
The backoff of failed attempts (`main.rs`, `watch`): what a tick does to the retry state, said once; the retries of
one failure are spaced by doubling waits, and no wait is longer than a minute.
-/
import BareServer.Watch.Retry
import BareServer.Watch.Listeners

namespace BareServer

open BareServer.Lib

variable {h : Nat → World} {c : Crates} {path : Str} {i : Nat}

/-! ## Attempts -/

/-- What a tick reads. -/
def readings (h : Nat → World) (w : Watcher) (i : Nat) : Readings := ((readInputs w).run h i).value

/-- The watcher once a tick has dropped the backoff of another version. -/
def Watcher.afterReset (h : Nat → World) (w : Watcher) (i : Nat) : Watcher :=
  resetBackoff w (readings h w i).cfgNow (readings h w i).tlsNow

/-- A tick has something to do: an input changed, or a listener has to move. -/
def hasWork (h : Nat → World) (w : Watcher) (i : Nat) : Bool :=
  cfgChanged w (readings h w i) || tlsChanged w (readings h w i) || w.pending.isSome

/-- A tick attempts it: it is due. -/
def triesReload (h : Nat → World) (w : Watcher) (i : Nat) : Bool := acts w (readings h w i)

/-- A tick is due when no retry is timed or its time has come. -/
theorem readInputs_dueAt (w : Watcher) : Obs.Holds h (fun _ _ => False) (readInputs w) i fun r j =>
    (r.due = true → ∀ t, (resetBackoff w r.cfgNow r.tlsNow).retryAt = some t → ∃ m, i ≤ m ∧ m < j ∧ t ≤ (h m).now) ∧
    (r.due = false → ∃ t m, (resetBackoff w r.cfgNow r.tlsNow).retryAt = some t ∧ i ≤ m ∧ m < j ∧ (h m).now < t) := by
  unfold readInputs fileSignatureOf
  rw [Obs.holds_bind, Obs.holds_view]
  refine (tlsSignatureOf_silent _ _).moments.bind fun tlsNow j hj => ?_
  refine (rootLinksOf_silent _ _).moments.bind fun links k hk => ?_
  split
  · rename_i hnone
    rw [Obs.holds_pure]
    exact ⟨fun _ t ht => by simp [hnone] at ht, fun hdue => by cases hdue⟩
  · rename_i t ht
    rw [Obs.holds_bind, Obs.holds_view, Obs.holds_pure]
    refine ⟨fun hdue t' ht' => ?_, fun hdue => ⟨t, k, ht, by omega, Nat.lt_succ_self k, ?_⟩⟩
    · cases ht.symm.trans ht'
      exact ⟨k, by omega, Nat.lt_succ_self k, of_decide_eq_true hdue⟩
    · exact Nat.not_le.1 (of_decide_eq_false hdue)

/-! ## One tick -/

/-- What a tick does to the retry state: nothing past the reset, without an attempt; a success clears it; a failure
is to be retried the backoff after it, and the backoff doubles up to its limit. -/
inductive RetryStep (h : Nat → World) (w : Watcher) (i : Nat) (w' : Watcher) (j : Nat) : Prop
  | idle (ha : triesReload h w i = false) (hs : SameRetry (w.afterReset h i) w')
      (hwait : hasWork h w i = true → ∃ t k, (w.afterReset h i).retryAt = some t ∧ i ≤ k ∧ (h k).now < t)
  | cleared (ha : triesReload h w i = true) (hr : w'.retryAt = none) (hf : w'.failedAt = none)
      (hb : w'.backoff = watchInterval) (hdue : ∀ t, (w.afterReset h i).retryAt = some t → ∃ k, i ≤ k ∧ k < j ∧ t ≤ (h k).now)
  | failed (ha : triesReload h w i = true) (m : Nat) (him : i ≤ m) (hmj : m < j) (hf : w'.failedAt.isSome)
      (hr : w'.retryAt = some ((h m).now + (w.afterReset h i).backoff))
      (hb : w'.backoff = min ((w.afterReset h i).backoff * 2) maxReloadBackoff)
      (hdue : ∀ t, (w.afterReset h i).retryAt = some t → ∃ k, i ≤ k ∧ k ≤ m ∧ t ≤ (h k).now)

theorem RetryStep.later {w w1 w2 : Watcher} {j k : Nat} (hs : RetryStep h w i w1 j) (h12 : SameRetry w1 w2)
    (hjk : j ≤ k) : RetryStep h w i w2 k := by
  cases hs with
  | idle ha hs hwait => exact .idle ha (hs.trans h12) hwait
  | cleared ha hr hf hb hdue =>
    refine .cleared ha (h12.retryAt.trans hr) (h12.failedAt.trans hf) (h12.backoff.trans hb) fun t ht => ?_
    obtain ⟨m, him, hmj, hle⟩ := hdue t ht
    exact ⟨m, him, by omega, hle⟩
  | failed ha m him hmj hf hr hb hdue =>
    exact .failed ha m him (by omega) (by rw [h12.failedAt]; exact hf) (h12.retryAt.trans hr) (h12.backoff.trans hb) hdue

theorem tick_retryStep {w : Watcher} {sig : UInt64} (hw : Backed w sig) :
    Obs.Holds h TimedPublication (tick c w) i fun w' j => RetryStep h w i w' j := by
  obtain ⟨r, j, hread, hdue, hij⟩ := (readInputs_dueAt (h := h) (i := i) w).run_eq
  have hr : readings h w i = r := by rw [readings, hread]
  have hreset : w.afterReset h i = resetBackoff w r.cfgNow r.tlsNow := by rw [Watcher.afterReset, hr]
  have hback := (@resetBackoff_backed w sig r.cfgNow r.tlsNow hw).2.1
  have hpend := (resetBackoff_listeners w r.cfgNow r.tlsNow).pending
  refine tick_holds (P := fun w1 _ k => RetryStep h w i w1 k ∧ w1.Timed) (Q := fun w1 k => RetryStep h w i w1 k ∧ w1.Timed)
    hread ?_ (fun w1 t k hP => ⟨hP.2, hP.1.later ⟨rfl, rfl, rfl, rfl⟩ (Nat.le_succ k), hP.2⟩) fun w1 k hQ => ?_
  · unfold applyInputs
    simp only [cfgChanged_resetBackoff, tlsChanged_resetBackoff, hpend]
    rw [← hreset] at hback hdue ⊢
    split
    · rename_i hgo
      have ha : triesReload h w i = true := by rw [triesReload, acts, hr]; exact hgo
      have hover := hdue.1 (Bool.and_eq_true _ _ ▸ hgo).1
      refine (takeArm_retry r hback.timed).moments.bind fun a k hak => ?_
      refine (reconcile_retry a k).silent.moments.bind fun b l hbl => ?_
      have hs := hak.1.trans hbl.1
      have hjl : j ≤ l := hak.2.trans hbl.2
      unfold settle
      cases b.failure with
      | none =>
        rw [Obs.holds_pure]
        refine ⟨.cleared ha rfl rfl rfl fun t ht => ?_, Iff.rfl⟩
        obtain ⟨m, him, hmj, hle⟩ := hover t ht
        exact ⟨m, him, by omega, hle⟩
      | some e =>
        simp only [Obs.holds_bind, Obs.holds_view, Obs.holds_pure]
        refine ⟨.failed ha l (by omega) (Nat.lt_succ_self l) rfl (by rw [← hs.backoff]) (by rw [← hs.backoff]) ?_,
          ⟨fun _ => rfl, fun _ => rfl⟩⟩
        intro t ht
        obtain ⟨m, him, hmj, hle⟩ := hover t ht
        exact ⟨m, him, by omega, hle⟩
    · rename_i hgo
      rw [Obs.holds_pure]
      refine ⟨.idle (by rw [triesReload, acts, hr]; simpa using hgo) (.refl _) fun hwork => ?_, hback.timed⟩
      have hlate : r.due = false := by
        rw [hasWork, hr] at hwork
        rw [hwork, Bool.and_true] at hgo
        exact Bool.eq_false_iff.2 hgo
      obtain ⟨t, m, ht, him, -, hlt⟩ := hdue.2 hlate
      exact ⟨t, m, ht, him, hlt⟩
  · refine (scan_retry hQ.2).moments.post fun w2 l hl => ?_
    exact ⟨hl.1.1.timed hQ.2, hQ.1.later hl.1.1 (by omega)⟩

/-! ## Runs -/

/-- The wait after a failure that `n` others came before. -/
def backoffAfter (n : Nat) : Nat := min (watchInterval * 2 ^ n) maxReloadBackoff

theorem backoffAfter_zero : backoffAfter 0 = watchInterval := by decide

theorem backoffAfter_succ (n : Nat) : min (backoffAfter n * 2) maxReloadBackoff = backoffAfter (n + 1) := by
  rw [backoffAfter, backoffAfter, Nat.pow_succ, ← Nat.mul_assoc]
  omega

/-- The states of a run, by tick, with the moments the ticks start at. -/
def tickStates (h : Nat → World) (c : Crates) (w : Watcher) (j k : Nat) : Watcher × Nat := Obs.reached h (tick c) k w j

/-- The tick of a run tries a reload. -/
def Tries (h : Nat → World) (s : Nat → Watcher × Nat) (k : Nat) : Prop := triesReload h (s k).1 (s k).2 = true

instance (s : Nat → Watcher × Nat) (k : Nat) : Decidable (Tries h s k) := inferInstanceAs (Decidable (_ = true))

/-- How many of `k` ticks, from tick `a`, try a reload. -/
def triesIn (h : Nat → World) (s : Nat → Watcher × Nat) (a : Nat) : Nat → Nat
  | 0 => 0
  | k + 1 => triesIn h s a k + if Tries h s (a + k) then 1 else 0

/-- One failure that lasts for `k` ticks: tick `a` tries a reload with no failure recorded, that one and all after it
leave a failure, and none of those after it drops the one before. -/
structure OneFailure (h : Nat → World) (s : Nat → Watcher × Nat) (a k : Nat) : Prop where
  first : ((s a).1.afterReset h (s a).2).failedAt = none
  tried : Tries h s a
  fails : ∀ l < k, (s (a + l + 1)).1.failedAt.isSome
  kept : ∀ l < k, ((s (a + l + 1)).1.afterReset h (s (a + l + 1)).2).failedAt.isSome

/-- The last of `k` ticks, from tick `a`, that tries a reload. -/
structure LastTry (h : Nat → World) (s : Nat → Watcher × Nat) (a k l : Nat) : Prop where
  lt : l < k
  tries : Tries h s (a + l)
  last : ∀ p, l < p → p < k → ¬ Tries h s (a + p)

/-- The retry state of a failure that lasts. -/
structure Waiting (h : Nat → World) (s : Nat → Watcher × Nat) (a k n : Nat) : Prop where
  tried : triesIn h s a k = n + 1
  backoff : (s (a + k)).1.backoff = backoffAfter (n + 1)
  retryAt : ∃ t, (s (a + k)).1.retryAt = some t ∧ (h (s a).2).now + ∑ i ∈ Finset.range (n + 1), backoffAfter i ≤ t ∧
    ∃ l, LastTry h s a k l ∧ t ≤ (h ((s (a + l + 1)).2 - 1)).now + backoffAfter n

instance (s : Nat → Watcher × Nat) (a k : Nat) : Decidable (OneFailure h s a k) :=
  decidable_of_iff (_ ∧ _ ∧ _ ∧ _) ⟨fun ⟨hfirst, htried, hfails, hkept⟩ => ⟨hfirst, htried, hfails, hkept⟩,
    fun hone => ⟨hone.first, hone.tried, hone.fails, hone.kept⟩⟩

theorem afterReset_of_failed {w : Watcher} (hf : (w.afterReset h i).failedAt.isSome) : w.afterReset h i = w := by
  unfold Watcher.afterReset resetBackoff at hf ⊢
  split
  · split
    · simp_all
    · rfl
  · rfl

section

variable {s : Nat → Watcher × Nat} {a k n : Nat} {sig : UInt64}

theorem LastTry.next (hl : LastTry h s a k n) (hidle : ¬ Tries h s (a + k)) : LastTry h s a (k + 1) n := by
  refine ⟨hl.lt.trans (Nat.lt_succ_self k), hl.tries, fun p hnp hpk => ?_⟩
  rcases Nat.lt_succ_iff_lt_or_eq.1 hpk with hlt | rfl
  · exact hl.last p hnp hlt
  · exact hidle

theorem LastTry.now (ht : Tries h s (a + k)) : LastTry h s a (k + 1) k :=
  ⟨Nat.lt_succ_self k, ht, fun p hkp hpk => by omega⟩

/-- The first tick of a failure leaves the shortest wait. -/
theorem OneFailure.start (hclock : Monotone fun k => (h k).now)
    (hstep : RetryStep h (s a).1 (s a).2 (s (a + 1)).1 (s (a + 1)).2) (hw : Backed (s a).1 sig)
    (hone : OneFailure h s a 1) : Waiting h s a 1 0 := by
  have hfails := hone.fails 0 Nat.zero_lt_one
  have hfresh : ((s a).1.afterReset h (s a).2).backoff = watchInterval := (resetBackoff_backed hw).2.1.fresh hone.first
  have htries : triesIn h s a 1 = 1 := by simp [triesIn, hone.tried]
  cases hstep with
  | idle ha => exact absurd hone.tried (by rw [Tries, ha]; exact Bool.false_ne_true)
  | cleared _ _ hf => rw [Nat.add_zero, hf] at hfails; cases hfails
  | failed _ m him hmj _ hr hb =>
    rw [hfresh] at hr hb
    refine ⟨htries, by rw [hb, ← backoffAfter_zero, backoffAfter_succ], _, hr, ?_, 0, .now hone.tried, ?_⟩
    · have hle : (h (s a).2).now ≤ (h m).now := hclock him
      rw [Finset.sum_range_one, backoffAfter_zero]
      omega
    · have hle : (h m).now ≤ (h ((s (a + 1)).2 - 1)).now := hclock (by omega)
      rw [Nat.add_zero, backoffAfter_zero]
      omega

/-- One more tick of a failure: it waits on, or tries again once the wait is over and leaves the next one. -/
theorem Waiting.next (hclock : Monotone fun k => (h k).now)
    (hstep : RetryStep h (s (a + k)).1 (s (a + k)).2 (s (a + k + 1)).1 (s (a + k + 1)).2) (hw : Waiting h s a k n)
    (hkept : ((s (a + k)).1.afterReset h (s (a + k)).2).failedAt.isSome) (hfails : (s (a + k + 1)).1.failedAt.isSome) :
    ∃ m, Waiting h s a (k + 1) m := by
  have hreset := afterReset_of_failed hkept
  obtain ⟨t, ht, hsum, l, hl, hle⟩ := hw.retryAt
  cases hstep with
  | idle ha hs =>
    have hidle : ¬ Tries h s (a + k) := by rw [Tries, ha]; exact Bool.false_ne_true
    rw [hreset] at hs
    exact ⟨n, by rw [triesIn, if_neg hidle, hw.tried], hs.backoff.trans hw.backoff, t, hs.retryAt.trans ht, hsum, l,
      hl.next hidle, hle⟩
  | cleared _ _ hf => rw [hf] at hfails; cases hfails
  | failed ha m him hmj _ hr hb hdue =>
    rw [hreset] at hr hb hdue
    rw [hw.backoff] at hr hb
    obtain ⟨p, hip, hpm, htp⟩ := hdue t ht
    have hpast : (h p).now ≤ (h m).now := hclock hpm
    have hend : (h m).now ≤ (h ((s (a + k + 1)).2 - 1)).now := hclock (by omega)
    refine ⟨n + 1, by rw [triesIn, if_pos (show Tries h s (a + k) from ha), hw.tried], by rw [← Nat.add_assoc, hb, backoffAfter_succ], _,
      hr, ?_, k, .now ha, ?_⟩
    · rw [Finset.sum_range_succ]
      omega
    · omega

/-- While one failure lasts, the waits double. -/
theorem OneFailure.waiting (hclock : Monotone fun k => (h k).now)
    (hstep : ∀ k, RetryStep h (s k).1 (s k).2 (s (k + 1)).1 (s (k + 1)).2) (hw : Backed (s a).1 sig) :
    ∀ {k : Nat}, OneFailure h s a (k + 1) → ∃ n, Waiting h s a (k + 1) n
  | 0, hone => ⟨0, hone.start hclock (hstep a) hw⟩
  | k + 1, hone => by
    have hbefore : OneFailure h s a (k + 1) :=
      ⟨hone.first, hone.tried, fun l hl => hone.fails l (by omega), fun l hl => hone.kept l (by omega)⟩
    obtain ⟨n, hn⟩ := OneFailure.waiting hclock hstep hw hbefore
    exact hn.next hclock (hstep _) (hone.kept k (by omega)) (hone.fails (k + 1) (Nat.lt_succ_self _))

end

/-- Retries of one failure are spaced by doubling waits, in every run with a clock that does not go back: after
`n + 1` tries of it a tick that tries again ends no sooner after the first than their waits together; and a tick that
has something to do and does not try starts before the last wait is over, counted from the end of the tick that tried
last. -/
theorem retries_spaced (c : Crates) (path : Str) (h : Nat → World) (hclock : Monotone fun k => (h k).now) :
    ∀ w j l, (boot c path).run h 0 = ⟨.ok w, j, l⟩ → ∀ a k, OneFailure h (tickStates h c w j) a (k + 1) →
      ∃ n, triesIn h (tickStates h c w j) a (k + 1) = n + 1 ∧
        (Tries h (tickStates h c w j) (a + k + 1) → (h (tickStates h c w j a).2).now +
          ∑ i ∈ Finset.range (n + 1), backoffAfter i ≤ (h ((tickStates h c w j (a + k + 2)).2 - 1)).now) ∧
        (hasWork h (tickStates h c w j (a + k + 1)).1 (tickStates h c w j (a + k + 1)).2 = true →
          ¬ Tries h (tickStates h c w j) (a + k + 1) → ∃ l, LastTry h (tickStates h c w j) a (k + 1) l ∧
            (h (tickStates h c w j (a + k + 1)).2).now <
              (h ((tickStates h c w j (a + l + 1)).2 - 1)).now + backoffAfter n) := by
  intro w j l hrun a k hone
  have hboot := (boot_backed h c path).of_run hrun w rfl
  have hbacked := fun k => (reached_backed (h := h) (c := c) (j := j) hboot k).1
  have hstep : ∀ k, RetryStep h (tickStates h c w j k).1 (tickStates h c w j k).2 (tickStates h c w j (k + 1)).1
      (tickStates h c w j (k + 1)).2 := by
    intro k
    rw [tickStates, tickStates, Obs.reached_succ]
    exact (tick_retryStep (hbacked k)).2
  obtain ⟨n, hn⟩ := hone.waiting hclock hstep (hbacked a)
  have hreset := afterReset_of_failed (hone.kept k (Nat.lt_succ_self k))
  obtain ⟨t, ht, hsum, l, hl, hle⟩ := hn.retryAt
  have hnow := hstep (a + k + 1)
  refine ⟨n, hn.tried, fun htries => ?_, fun hwork htries => ⟨l, hl, ?_⟩⟩
  · have hover : ∃ p, p < (tickStates h c w j (a + k + 2)).2 ∧ t ≤ (h p).now := by
      cases hnow with
      | idle ha => exact absurd htries (by rw [Tries, ha]; exact Bool.false_ne_true)
      | cleared _ _ _ _ hdue =>
        obtain ⟨p, -, hp, hle⟩ := hdue t (by rw [hreset]; exact ht)
        exact ⟨p, hp, hle⟩
      | failed _ m _ hm _ _ _ hdue =>
        obtain ⟨p, -, hp, hle⟩ := hdue t (by rw [hreset]; exact ht)
        exact ⟨p, hp.trans_lt hm, hle⟩
    obtain ⟨p, hp, htp⟩ := hover
    have hend : (h p).now ≤ (h ((tickStates h c w j (a + k + 2)).2 - 1)).now := hclock (by omega)
    exact (hsum.trans htp).trans hend
  · cases hnow with
    | idle _ _ hwait =>
      obtain ⟨t', p, ht', hp, hlt⟩ := hwait hwork
      rw [hreset] at ht'
      cases ht.symm.trans ht'
      have hstart : (h (tickStates h c w j (a + k + 1)).2).now ≤ (h p).now := hclock hp
      omega
    | cleared ha => exact absurd ha htries
    | failed ha => exact absurd ha htries

/-- A config that does not parse, before the second tick, and stays. -/
def brokenEdit (k : Nat) : World :=
  { World.small (if k < 14 then confOf [str "a.example"] else str "site") (if k < 14 then 1 else 2) 1 with
    now := k * 300000000 }

/-- Three tries, then a fourth no sooner than fourteen seconds after the first. -/
theorem retries_spaced_broken : ∃ w j l, (boot anyPem confPath).run brokenEdit 0 = ⟨.ok w, j, l⟩ ∧
    triesIn brokenEdit (tickStates brokenEdit anyPem w j) 1 7 = 3 ∧ Tries brokenEdit (tickStates brokenEdit anyPem w j) 8 ∧
    (brokenEdit (tickStates brokenEdit anyPem w j 1).2).now + 7 * watchInterval ≤
      (brokenEdit ((tickStates brokenEdit anyPem w j 9).2 - 1)).now := by
  have hclock : Monotone fun k => (brokenEdit k).now := fun a b hab => Nat.mul_le_mul_right 300000000 hab
  obtain ⟨w, j, l, hrun, hok⟩ := boot_of_any (c := anyPem) (h := brokenEdit) confPath (fun w j =>
    decide (OneFailure brokenEdit (tickStates brokenEdit anyPem w j) 1 7 ∧
      triesIn brokenEdit (tickStates brokenEdit anyPem w j) 1 7 = 3 ∧
      Tries brokenEdit (tickStates brokenEdit anyPem w j) 8)) (by decide +kernel)
  obtain ⟨hone, htries, hagain⟩ := of_decide_eq_true hok
  obtain ⟨n, hn, hspaced, -⟩ := retries_spaced anyPem confPath brokenEdit hclock w j l hrun 1 6 hone
  obtain rfl : n = 2 := Nat.succ.inj (hn.symm.trans htries)
  exact ⟨w, j, l, hrun, htries, hagain, hspaced hagain⟩

end BareServer
