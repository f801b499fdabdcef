/-
Certificate renewal under a config file that is rejected.
-/
import BareServer.Watch.Runtime

namespace BareServer

open BareServer.Lib

variable {h : Nat → World} {c : Crates}

/-! ## Situations -/

/-- From `i` up to `e` the config file holds a content that has not been applied, stays as the last tick read it, and
is rejected by every load or every build. -/
structure ConfigRejected (h : Nat → World) (c : Crates) (w : Watcher) (i e : Nat) : Prop where
  unapplied : w.cfgLast ≠ w.cfgApplied
  stable : ∀ j, i ≤ j → j < e → fileSignature ((h j).info w.configPath) = w.cfgLast
  rejected : ∀ j, i ≤ j → ∀ cfg, (h j).load w.configPath = .ok cfg → ∀ seq k, j ≤ k → k < e →
    ∃ msg, ((buildRuntime c cfg.cfg seq : Watch _).run h k).value.1 = .error msg

/-- The certificates of the live config changed and stayed for one tick, a reload of them is due, and they
build. -/
def renewalReady (h : Nat → World) (c : Crates) (w : Watcher) (i : Nat) : Bool :=
  let o := (readInputs w).run h i
  o.value.due && tlsChanged w o.value &&
    ((buildTls c.rustls w.live.tlsFrom.cfg : Watch (Except Str ServerConfig)).run h o.next).value.toOption.isSome

/-- A tick installs a TLS configuration. -/
def Renews (h : Nat → World) (c : Crates) (w : Watcher) (i : Nat) : Prop :=
  ∃ e ∈ ((tick c w).run h i).trace, ∃ cfg sig, .certs cfg sig ∈ e.2.installs

/-! ## Runs -/

/-- A state under a rejected config: nothing has been applied, and the certificates are the old ones. -/
structure Blocked (w w' : Watcher) : Prop where
  configPath : w'.configPath = w.configPath
  cfgApplied : w'.cfgApplied = w.cfgApplied
  tls : w'.live.runtime.tls = w.live.runtime.tls

theorem Blocked.core {w w1 w2 : Watcher} (hw : Blocked w w1) (hcore : SameCore w1 w2) : Blocked w w2 :=
  ⟨hcore.configPath.trans hw.configPath, hcore.cfgApplied.trans hw.cfgApplied, by rw [hcore.live]; exact hw.tls⟩

/-- What is published then: no certificates, and the old ones stay. -/
def NoRenewal (w : Watcher) (_ : Nat) (p : Publication) : Prop :=
  (∀ cfg sig, .certs cfg sig ∉ p.installs) ∧ p.watcher.live.runtime.tls = w.live.runtime.tls

theorem scan_blocked {w w1 : Watcher} {i : Nat} (hw : Blocked w w1) (hl : w1.cfgLast = w.cfgLast) :
    Obs.Holds h (NoRenewal w) (scan c w1) i fun w2 _ => Blocked w w2 ∧ w2.cfgLast = w.cfgLast := by
  refine scan_holds (P := fun _ w2 _ => Blocked w w2 ∧ w2.cfgLast = w.cfgLast) (fun _ _ => ⟨hw, hl⟩) ?_ fun _ _ _ hP => hP
  intro order sigs targets j _ _ done t rest _ w' k _ hP
  refine scanSite_holds (fun _ _ _ _ => ⟨⟨hP.1.configPath, hP.1.cfgApplied, hP.1.tls⟩, hP.2⟩) fun cache total seq _ _ => ?_
  exact ⟨⟨by simp, hP.1.tls⟩, ⟨hP.1.configPath, hP.1.cfgApplied, hP.1.tls⟩, hP.2⟩

theorem tick_blocked {w w1 : Watcher} {i j e : Nat} (hr : ConfigRejected h c w i e) (hij : i ≤ j) (hje : j < e)
    (hw : Blocked w w1) (hl : w1.cfgLast = w.cfgLast) :
    Obs.Holds h (fun m p => m < e → NoRenewal w m p) (tick c w1) j
      fun w2 k => k ≤ e → Blocked w w2 ∧ w2.cfgLast = w.cfgLast := by
  obtain ⟨r, k, hread, hnow, hjk⟩ := readInputs_run h w1 j
  have hsig : r.cfgNow = w.cfgLast := by
    rw [hnow, hw.configPath]
    exact hr.stable j hij hje
  -- the guard of the full reload is true, so the certificate-only arm is out of reach
  have hcfg : cfgChanged w1 r = true := by
    simp [cfgChanged, hsig, hw.cfgApplied, hl, hr.unapplied]
  refine tick_holds (P := fun w2 _ m => m ≤ e → Blocked w w2)
    (Q := fun w2 m => m ≤ e → Blocked w w2 ∧ w2.cfgLast = w.cfgLast) hread ?_ (fun w2 t m hP => ?_) fun w2 m hQ => ?_
  · refine applyInputs_holds (P := fun w2 _ m => m ≤ e → Blocked w w2)
      (fun w2 w3 t m n hcore hmn hP hn => (hP (hmn.trans hn)).core hcore) ?_ ?_ fun _ _ _ => hw
    · intro _ w0 hcore
      have hw0 := hw.core hcore
      refine reload_holds (fun seq err m _ _ => ⟨hw0.configPath, hw0.cfgApplied, hw0.tls⟩) ?_
      intro cfg s rt seq order applied last m n l hload _ hbuild _ hkm hmn hnl
      rw [hw0.configPath] at hload
      -- a reload that goes through was not rejected, so it ends too late
      have hlate : ¬ l ≤ e := by
        intro hle
        obtain ⟨msg, hmsg⟩ := hr.rejected k (by omega) cfg hload w0.buildSeq m (by omega) (by omega)
        rw [hbuild] at hmsg
        cases hmsg
      exact ⟨fun hl => absurd hl.le hlate, fun t n hn hne => absurd (hn.trans hne) hlate⟩
    · intro htakes
      simp [takesCerts, hcfg] at htakes
  · exact ⟨fun hm => ⟨by simp, (hP hm.le).tls⟩, fun hm =>
      have hP := hP ((Nat.le_succ m).trans hm)
      ⟨⟨hP.configPath, hP.cfgApplied, hP.tls⟩, hsig⟩⟩
  · by_cases hm : m ≤ e
    · obtain ⟨hb, hlast⟩ := hQ hm
      exact (scan_blocked hb hlast).mono (fun _ _ hI _ => hI) fun w3 l hP => ⟨fun _ => ⟨by simp, hP.1.tls⟩, fun _ => hP⟩
    · refine (Obs.holds_moments _).mono (fun l p hl hle => absurd (hl.trans hle.le) hm) fun w3 l hl => ?_
      exact ⟨fun hle => absurd (hl.trans hle.le) hm, fun hle => absurd (hl.trans (Nat.le_of_succ_le hle)) hm⟩

/-- As long as a rejected config stays on disk, no tick renews certificates, whatever happens to the PEM files:
no tick installs any, and the old ones stay live. -/
theorem rejected_config_blocks_renewal (c : Crates) (h : Nat → World) (w : Watcher) (i n : Nat)
    (hr : ConfigRejected h c w i (Obs.reached h (tick c) n w i).2) :
    Obs.EachRound h (tick c) (fun w' j => ¬ Renews h c w' j) n w i ∧
      ∀ e ∈ ((Obs.repeatN (tick c) n w).run h i).trace, e.2.watcher.live.runtime.tls = w.live.runtime.tls := by
  generalize hend : (Obs.reached h (tick c) n w i).2 = e at hr
  -- a round of the run starts before the end of the last one, and ends by then
  let Within (w' : Watcher) (j : Nat) : Prop := j < e ∧ ((tick c w').run h j).next ≤ e
  have hround : Obs.EachRound h (tick c) Within n w i := .within (fun w' j => tick_lt w' j) hend.le
  have hstart : i ≤ i ∧ Blocked w w ∧ w.cfgLast = w.cfgLast := ⟨le_rfl, ⟨rfl, rfl, rfl⟩, rfl⟩
  have hstep : ∀ w' j, (i ≤ j ∧ Blocked w w' ∧ w'.cfgLast = w.cfgLast) → Within w' j →
      Obs.Holds h (NoRenewal w) (tick c w') j fun w2 k => i ≤ k ∧ Blocked w w2 ∧ w2.cfgLast = w.cfgLast := by
    intro w' j hP hwithin
    have htick := (tick_blocked hr hP.1 hwithin.1 hP.2.1 hP.2.2).moments
    exact ⟨fun p hp => htick.1 p hp ((Obs.trace_within _ _ p hp).2.trans_le hwithin.2),
      hP.1.trans htick.2.2, htick.2.1 hwithin.2⟩
  constructor
  · refine Obs.EachRound.imp (fun w' j hP hwithin => ⟨?_, (hstep w' j hP hwithin).2⟩) n w i hstart hround
    rintro ⟨p, hp, cfg, sig, hsig⟩
    exact ((hstep w' j hP hwithin).1 p hp).1 cfg sig hsig
  · exact fun p hp => ((Obs.holds_repeatN (fun w' j hP hwithin => hstep w' j hP hwithin) n w i hstart hround).1 p hp).2

/-- A config that no longer parses, from the first tick on, and a renewal between the second and the third. -/
def badEdit (k : Nat) : World :=
  { World.small (if k < 14 then confOf [str "a.example"] else str "site") (if k < 14 then 1 else 2) (if k < 30 then 1 else 2)
    with now := k * 10 ^ 9 }

theorem badEdit_rejected {w : Watcher} {i : Nat} (hi : 14 ≤ i) (hpath : w.configPath = confPath)
    (hlast : w.cfgLast = fileSignature (some ⟨1, some 2⟩)) (happlied : w.cfgLast ≠ w.cfgApplied) :
    ∀ e, ConfigRejected badEdit anyPem w i e := by
  have hbad : (parseConfig (str "site")).toOption.isNone = true := by decide
  refine fun e => ⟨happlied, fun j hj _ => ?_, fun j hj cfg hload => ?_⟩
  · have hj' : ¬ j < 14 := by omega
    simp [badEdit, World.small, hpath, hlast, hj']
  · have htext := World.load_text hload
    have hj' : ¬ j < 14 := by omega
    simp only [badEdit, World.small, hpath, hj', if_true, if_false, Except.ok.injEq] at htext
    rw [htext, cfg.parsed] at hbad
    cases hbad

/-- What the run has come to before its fourth tick: the config is rejected, the renewal ready. -/
theorem badEdit_ready : ∃ w j l, (boot anyPem confPath).run badEdit 0 = ⟨.ok w, j, l⟩ ∧
    (∀ e, ConfigRejected badEdit anyPem (Obs.reached badEdit (tick anyPem) 3 w j).1
      (Obs.reached badEdit (tick anyPem) 3 w j).2 e) ∧
    renewalReady badEdit anyPem (Obs.reached badEdit (tick anyPem) 3 w j).1
      (Obs.reached badEdit (tick anyPem) 3 w j).2 = true := by
  obtain ⟨w, j, l, hrun, hok⟩ := boot_of_any (c := anyPem) (h := badEdit) confPath (fun w j =>
    let o := Obs.reached badEdit (tick anyPem) 3 w j
    decide (14 ≤ o.2 ∧ o.1.configPath = confPath ∧ o.1.cfgLast = fileSignature (some ⟨1, some 2⟩) ∧
      o.1.cfgLast ≠ o.1.cfgApplied) && renewalReady badEdit anyPem o.1 o.2) (by decide +kernel)
  simp only [Bool.and_eq_true, decide_eq_true_eq] at hok
  obtain ⟨⟨hi, hpath, hlast, happlied⟩, hready⟩ := hok
  exact ⟨w, j, l, hrun, badEdit_rejected hi hpath hlast happlied, hready⟩

/-- A config with a syntax error keeps a renewal out that is ready. -/
theorem rejected_config_blocks_renewal_bad_edit : ∃ w i, renewalReady badEdit anyPem w i = true ∧
    Obs.EachRound badEdit (tick anyPem) (fun w' j => ¬ Renews badEdit anyPem w' j) 2 w i ∧
    ∀ e ∈ ((Obs.repeatN (tick anyPem) 2 w).run badEdit i).trace, e.2.watcher.live.runtime.tls = w.live.runtime.tls := by
  obtain ⟨w, j, l, -, hrejected, hready⟩ := badEdit_ready
  exact ⟨_, _, hready, rejected_config_blocks_renewal anyPem badEdit _ _ 2 (hrejected _)⟩

/-- In the fourth tick a ready renewal is not installed. -/
theorem ready_renewal_not_installed : ¬ EachTick anyPem confPath badEdit (fun w i =>
    ConfigRejected badEdit anyPem w i ((tick anyPem w).run badEdit i).next → renewalReady badEdit anyPem w i = true →
      Renews badEdit anyPem w i) 4 := by
  intro hall
  obtain ⟨w, j, l, hrun, hrejected, hready⟩ := badEdit_ready
  obtain ⟨e, he, cfg, sig, hsig⟩ := (hall w j l hrun).get (show 3 < 4 by omega) (hrejected _) hready
  have hlt := tick_lt (c := anyPem) (h := badEdit) (Obs.reached badEdit (tick anyPem) 3 w j).1
    (Obs.reached badEdit (tick anyPem) 3 w j).2
  have hblocked := (tick_blocked (hrejected _) le_rfl hlt ⟨rfl, rfl, rfl⟩ rfl).1 e he
  exact (hblocked (Obs.trace_within _ _ e he).2).1 cfg sig hsig

end BareServer
