/-
Edits of the config file against the signature that is recorded as applied. A run's moments are times
of a history that goes on between them: whatever is edited, and whenever.
-/
import BareServer.Watch.Runtime

namespace BareServer

open BareServer.Lib

variable {H : Nat → World} {τ : Nat → Nat} {c : Crates} {path : Str}

/-! ## Edits -/

/-- What the moments of a run see of a history: the machine at their times. -/
abbrev seen (H : Nat → World) (τ : Nat → Nat) : Nat → World := fun k => H (τ k)

/-- The signature of a file at a time of a history. -/
def sigAt (H : Nat → World) (path : Str) (t : Nat) : UInt64 := fileSignature ((H t).info path)

/-- Every edit gives the file a signature it never had before. -/
def EditsFresh (H : Nat → World) (path : Str) : Prop :=
  ∀ t, (sigAt H path (t + 1) ≠ sigAt H path t ∨ (H (t + 1)).text path ≠ (H t).text path) →
    ∀ s ≤ t, sigAt H path (t + 1) ≠ sigAt H path s

/-- While a signature is the same at two times, so is the text all the time between them. -/
theorem EditsFresh.text_eq (hf : EditsFresh H path) {s l t : Nat} (hsl : s ≤ l) (hlt : l ≤ t)
    (heq : sigAt H path t = sigAt H path s) : (H l).text path = (H t).text path := by
  induction t with
  | zero => rw [Nat.le_zero.1 hlt]
  | succ t ih =>
    by_cases hl : l = t + 1
    · rw [hl]
    · -- an edit at `t` would have brought a new signature
      have hsame : ¬ (sigAt H path (t + 1) ≠ sigAt H path t ∨ (H (t + 1)).text path ≠ (H t).text path) :=
        fun hedit => hf t hedit s (by omega) heq
      simp only [not_or, not_not] at hsame
      rw [hsame.2]
      exact ih (by omega) (hsame.1.symm.trans heq)

/-! ## What is recorded -/

/-- The applied signature was read before the text of the live sites was. -/
structure ReadInOrder (H : Nat → World) (τ : Nat → Nat) (path : Str) (w : Watcher) (m : Nat) : Prop where
  configPath : w.configPath = path
  order : ∃ s l, s ≤ l ∧ l ≤ m ∧ w.cfgApplied = sigAt H path (τ s) ∧ (H (τ l)).text path = .ok w.live.vhostsFrom.text

/-- From the time of a moment on, a config file that carries the applied signature holds the text of the live
sites. -/
def NoLostEdit (H : Nat → World) (τ : Nat → Nat) (path : Str) (m : Nat) (w : Watcher) : Prop :=
  ∀ t, τ m ≤ t → sigAt H path t = w.cfgApplied → (H t).text path = .ok w.live.vhostsFrom.text

theorem ReadInOrder.noLostEdit {w : Watcher} {m : Nat} (hw : ReadInOrder H τ path w m) (hτ : Monotone τ)
    (hf : EditsFresh H path) : NoLostEdit H τ path m w := by
  obtain ⟨s, l, hsl, hlm, hsig, htext⟩ := hw.order
  intro t ht hnow
  rw [← htext]
  exact (hf.text_eq (hτ hsl) ((hτ hlm).trans ht) (hnow.trans hsig)).symm

theorem ReadInOrder.later {w w' : Watcher} {m m' : Nat} (hw : ReadInOrder H τ path w m) (hm : m ≤ m')
    (hp : w'.configPath = w.configPath) (ha : w'.cfgApplied = w.cfgApplied)
    (hl : w'.live.vhostsFrom = w.live.vhostsFrom) : ReadInOrder H τ path w' m' := by
  obtain ⟨s, l, hsl, hlm, hrest⟩ := hw.order
  refine ⟨hp.trans hw.configPath, s, l, hsl, hlm.trans hm, ?_⟩
  rw [ha, hl]
  exact hrest

theorem ReadInOrder.core {w w' : Watcher} {m m' : Nat} (hw : ReadInOrder H τ path w m) (hm : m ≤ m')
    (hcore : SameCore w w') : ReadInOrder H τ path w' m' :=
  hw.later hm hcore.configPath hcore.cfgApplied (by rw [hcore.live])

/-! ## Runs -/

section

variable (hτ : Monotone τ) (hf : EditsFresh H path)

include hτ hf

theorem scan_readInOrder {w : Watcher} {i : Nat} (hw : ReadInOrder H τ path w i) :
    Obs.Holds (seen H τ) (fun m p => NoLostEdit H τ path m p.watcher) (scan c w) i (ReadInOrder H τ path) := by
  refine scan_holds (P := fun _ => ReadInOrder H τ path) (fun j hj => hw.later hj rfl rfl rfl) ?_ fun _ _ _ hP => hP
  intro order sigs targets j _ _ done t rest _ w' k _ hP
  refine scanSite_holds (fun seq failed l hl => hP.later hl rfl rfl rfl) fun cache total seq _ _ => ?_
  have hnext : ReadInOrder H τ path (w'.rebuilt t.1.id cache (targetKey t) (scanned sigs t) seq) (k + 1) :=
    hP.later (Nat.le_succ k) rfl rfl rfl
  exact ⟨hnext.noLostEdit hτ hf, hnext.later (Nat.le_succ _) rfl rfl rfl⟩

theorem tick_readInOrder {w : Watcher} {i : Nat} (hw : ReadInOrder H τ path w i) :
    Obs.Holds (seen H τ) (fun m p => NoLostEdit H τ path m p.watcher) (tick c w) i (ReadInOrder H τ path) := by
  obtain ⟨r, j, hread, hsig, hij⟩ := readInputs_run (seen H τ) w i
  refine tick_holds (P := fun w' _ k => ReadInOrder H τ path w' k) (Q := ReadInOrder H τ path) hread ?_
    (fun w1 t k hP => ?_) fun w1 k hQ => (scan_readInOrder hτ hf hQ).post fun w2 l hP =>
      ⟨hP.noLostEdit hτ hf, hP.later (Nat.le_succ l) rfl rfl rfl⟩
  · refine applyInputs_holds (P := fun w' _ k => ReadInOrder H τ path w' k)
      (fun w1 w2 t j k hcore hjk hP => hP.core hjk hcore) ?_ ?_ fun _ _ => hw.later hij rfl rfl rfl
    · intro _ w0 hcore
      have hw0 := hw.core hij hcore
      refine reload_holds (fun seq e k hk => hw0.later hk rfl rfl rfl) ?_
      intro cfg s rt seq order applied last k l m hload _ _ _ hjk hkl hlm
      -- the signature was read first in this tick, the text after it
      have hnew : ReadInOrder H τ path (w0.reloaded cfg s rt applied last r.cfgNow seq) m := by
        refine ⟨hw0.configPath, i, j, hij, by omega, ?_, ?_⟩
        · show r.cfgNow = _
          rw [hsig, hw.configPath]
          rfl
        · rw [hw0.configPath] at hload
          exact World.load_text hload
      exact ⟨hnew.noLostEdit hτ hf, fun t k' hk' => hnew.later hk' rfl rfl rfl⟩
    · intro _ w0 hcore
      have hw0 := hw.core hij hcore
      refine reloadTls_holds (fun e k hk => hw0.later hk rfl rfl rfl) fun cfg tls k _ _ hk => ?_
      have hnew : ReadInOrder H τ path (w0.renewed cfg tls r.tlsNow) k := hw0.later hk rfl rfl rfl
      exact ⟨hnew.noLostEdit hτ hf, hnew.later (Nat.le_succ k) rfl rfl rfl⟩
  · have hkept : ReadInOrder H τ path { w1 with cfgLast := r.cfgNow, tlsLast := t, linksLast := r.linksNow } k :=
      hP.later le_rfl rfl rfl rfl
    exact ⟨hkept.noLostEdit hτ hf, hkept.later (Nat.le_succ k) rfl rfl rfl⟩

theorem boot_readInOrder (hboot : (H (τ 2)).text path = (H (τ 0)).text path) :
    Obs.Holds (seen H τ) (fun m p => NoLostEdit H τ path m p.watcher) (boot c path) 0
      fun x j => ∀ w, x = .ok w → ReadInOrder H τ path w j := by
  refine boot_holds fun cfg s rt seq https http loops j k l hload hs _ hj hjk hkl _ => watchInit_holds ?_
  intro w order m hm hpath happlied hlive _ _ _
  have hnew : ReadInOrder H τ path w m := by
    refine ⟨hpath, 2, 2, le_rfl, by omega, ?_, ?_⟩
    · rw [happlied]
      exact ((sample_silent path cfg.cfg 2).of_run hs).1
    · rw [hboot, hlive]
      exact World.load_text hload
  exact ⟨hnew.noLostEdit hτ hf, hnew.later (Nat.le_succ m) rfl rfl rfl⟩

/-- Whatever is edited during boot and the ticks, no edit is lost, as long as the text that boot loads is
still there when the config's signature is sampled. -/
theorem process_noLostEdit (hboot : (H (τ 2)).text path = (H (τ 0)).text path) (c : Crates) (n : Nat) :
    ∀ e ∈ ((process c path n).run (seen H τ) 0).trace, NoLostEdit H τ path e.1 e.2.watcher :=
  (process_holds (boot_readInOrder hτ hf hboot) (fun _ _ hw _ => tick_readInOrder hτ hf hw) (eachTick_of_forall (fun _ _ => trivial) n)).1

end

/-- One edit at one time: a host is added, and the file's time moves on. -/
def editAt (t k : Nat) : World :=
  .small (if k < t then confOf [str "a.example"] else confOf [str "a.example", str "b.example"]) (if k < t then 1 else 2) 1

theorem editAt_fresh (t : Nat) : EditsFresh (editAt t) confPath := by
  have hsig : ∀ k, sigAt (editAt t) confPath k = if k < t then fileSignature (some ⟨1, some 1⟩)
      else fileSignature (some ⟨1, some 2⟩) := by
    intro k
    show fileSignature (some ⟨1, some (if k < t then 1 else 2)⟩) = _
    split <;> rfl
  have hne : fileSignature (some ⟨1, some 2⟩) ≠ fileSignature (some ⟨1, some 1⟩) := by decide
  intro k hedit s hs
  by_cases hk : k + 1 < t
  · -- before the edit nothing changes
    have hk' : k < t := by omega
    simp [hsig, hk, hk', editAt] at hedit
  · by_cases hk' : k < t
    · have hs' : s < t := by omega
      rw [hsig, hsig, if_neg hk, if_pos hs']
      exact hne
    · simp [hsig, hk, hk', editAt] at hedit

/-- An edit after boot, seen by two ticks. -/
theorem process_noLostEdit_after_boot : ((process anyPem confPath 2).run (seen (editAt 14) id) 0).trace.length = 6 ∧
    ∀ e ∈ ((process anyPem confPath 2).run (seen (editAt 14) id) 0).trace,
      NoLostEdit (editAt 14) id confPath e.1 e.2.watcher :=
  ⟨by decide +kernel, process_noLostEdit monotone_id (editAt_fresh 14) rfl anyPem 2⟩

/-- An edit between boot's load and its sample is recorded as applied, and no tick sees it. -/
theorem edit_during_boot : EditsFresh (editAt 1) confPath ∧
    ¬ ∀ e ∈ ((process anyPem confPath 2).run (seen (editAt 1) id) 0).trace,
      NoLostEdit (editAt 1) id confPath e.1 e.2.watcher := by
  refine ⟨editAt_fresh 1, fun hall => ?_⟩
  have hbad : (((process anyPem confPath 2).run (seen (editAt 1) id) 0).trace.any fun e =>
      decide (sigAt (editAt 1) confPath e.1 = e.2.watcher.cfgApplied) &&
        decide ((editAt 1 e.1).text confPath ≠ .ok e.2.watcher.live.vhostsFrom.text)) = true := by
    decide +kernel
  obtain ⟨e, he, hb⟩ := List.any_eq_true.1 hbad
  simp only [Bool.and_eq_true, decide_eq_true_eq] at hb
  exact hb.2 (hall e he e.1 le_rfl hb.1)

end BareServer
