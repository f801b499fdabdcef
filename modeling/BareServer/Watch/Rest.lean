/-
Convergence of the watcher (`main.rs`, `watch`): once the files stand still, the second tick after that leaves
every input recorded as applied or its failure recorded; and where all of it is so recorded no later tick changes what
is served.
-/
import BareServer.Watch.Still
import BareServer.Watch.Listeners

namespace BareServer

open BareServer.Lib

variable {h : Nat → World} {I : Nat → Publication → Prop} {c : Crates} {path : Str} {v : World} {i : Nat}

/-! ## The content scan -/

/-- Targets of one scan have keys of their own. -/
theorem ScanList.keys {sites : Sites} (hk : Keyed sites) {targets : List (Site × Path × Str)}
    (hl : ScanList sites targets) : (targets.map targetKey).Nodup := by
  refine (List.nodup_map_iff_inj_on (List.Nodup.of_map _ hl.hosts)).2 fun t ht u hu hkey => ?_
  exact List.inj_on_of_nodup_map hl.hosts ht hu (hk.host_eq (hl.target t ht) (hl.target u hu) hkey)

/-- One target, with why it is left as it is, refused or rebuilt. -/
theorem scanSite_cases {sigs : Map Str UInt64} {targets : List (Site × Path × Str)} {w : Watcher}
    {t : Site × Path × Str} {Q : Watcher → Nat → Prop}
    (idle : (scanned sigs t = (w.treeLast.lookup (targetKey t)).getD (scanned sigs t) →
        (w.treeApplied.lookup (targetKey t)).getD (scanned sigs t) = scanned sigs t) →
      Q { w with treeLast := w.treeLast.insert (targetKey t) (scanned sigs t) } i)
    (refused : (w.treeApplied.lookup (targetKey t)).getD (scanned sigs t) ≠ scanned sigs t → ∀ seq failed,
      failed.lookup (targetKey t) = some (scanned sigs t) →
      (∀ key, key ≠ targetKey t → failed.lookup key = w.treeFailed.lookup key) →
      Q { w with buildSeq := seq, treeFailed := failed,
                 treeLast := w.treeLast.insert (targetKey t) (scanned sigs t) } (i + 1))
    (built : (w.treeApplied.lookup (targetKey t)).getD (scanned sigs t) ≠ scanned sigs t → ∀ cache seq,
      I (i + 1) ⟨w.rebuilt t.1.id cache (targetKey t) (scanned sigs t) seq, [.tree (targetKey t) (scanned sigs t)]⟩ ∧
      Q (w.rebuilt t.1.id cache (targetKey t) (scanned sigs t) seq) (i + 2)) :
    Obs.Holds h I (scanSite c sigs targets w t) i Q := by
  obtain ⟨site, root, host⟩ := t
  unfold scanSite
  simp only
  split
  · rename_i hnow
    simp only [Bool.and_eq_true, decide_eq_true_eq] at hnow
    rw [Obs.holds_bind, Obs.holds_view]
    split
    · rename_i cache total seq hb
      obtain ⟨hI, hQ⟩ := built hnow.1.symm cache seq
      rw [Obs.holds_bind, Obs.holds_publish, Obs.holds_pure]
      exact ⟨hI, hQ⟩
    · rw [Obs.holds_pure]
      refine refused hnow.1.symm _ _ ?_ fun key hkey => ?_
      · split
        · assumption
        · exact AList.lookup_insert _
      · split
        · rfl
        · exact AList.lookup_insert_ne hkey
  · rename_i hnot
    rw [Obs.holds_pure]
    refine idle fun hlast => ?_
    by_contra hne
    exact hnot (by simp only [Bool.and_eq_true, decide_eq_true_eq]; exact ⟨fun heq => hne heq.symm, hlast⟩)

/-- Two watchers that differ in their caches and in what is recorded of the trees only. -/
structure SameButTrees (w w' : Watcher) : Prop where
  frame : { w' with
    buildSeq := w.buildSeq, live := w.live, treeApplied := w.treeApplied, treeLast := w.treeLast,
    treeFailed := w.treeFailed } = w
  recached : Recached w.live.runtime.vhosts.sites w'.live.runtime.vhosts.sites

/-- What does not look at these is the same. -/
theorem SameButTrees.get {α : Type} {w w' : Watcher} (hs : SameButTrees w w') (f : Watcher → α)
    (hf : ∀ (u : Watcher) seq live applied last failed, f { u with
      buildSeq := seq, live := live, treeApplied := applied, treeLast := last, treeFailed := failed } = f u := by
        intros; rfl) : f w' = f w :=
  (hf w' _ _ _ _ _).symm.trans (congrArg f hs.frame)

theorem SameButTrees.refl (w : Watcher) : SameButTrees w w := ⟨rfl, .refl _⟩

/-- A scan in progress: the targets done have the signature of now as their last one, the others the one before;
and where that was the one of now already, each target done is applied or its build has failed. -/
structure ScannedStill (v : World) (w : Watcher) (done : List (Site × Path × Str)) (w' : Watcher) : Prop where
  same : SameButTrees w w'
  keyed : Keyed w'.live.runtime.vhosts.sites
  ahead : ∀ key, key ∉ done.map targetKey → w'.treeLast.lookup key = w.treeLast.lookup key
  last : ∀ t ∈ done, w'.treeLast.lookup (targetKey t) = some (v.treeSig t.2.1)
  brought : TreesLast v w → ∀ t ∈ done, TreeApplied v w' t ∨ TreeFailed v w' t

/-- One more target done: its key alone is recorded anew. -/
theorem ScannedStill.next {w w1 w2 : Watcher} {done : List (Site × Path × Str)} {t : Site × Path × Str}
    (hs : ScannedStill v w done w1) (hnot : targetKey t ∉ done.map targetKey)
    (same : SameButTrees w w2) (keyed : Keyed w2.live.runtime.vhosts.sites)
    (last : w2.treeLast = w1.treeLast.insert (targetKey t) (v.treeSig t.2.1))
    (others : ∀ key, key ≠ targetKey t → w2.treeApplied.lookup key = w1.treeApplied.lookup key ∧
      w2.treeFailed.lookup key = w1.treeFailed.lookup key)
    (brought : TreesLast v w → TreeApplied v w2 t ∨ TreeFailed v w2 t) : ScannedStill v w (done ++ [t]) w2 := by
  have hne : ∀ u ∈ done, targetKey u ≠ targetKey t := fun u hu heq => hnot (heq ▸ List.mem_map_of_mem hu)
  refine ⟨same, keyed, fun key hkey => ?_, fun u hu => ?_, fun hw u hu => ?_⟩
  · rw [List.map_append, List.mem_append, not_or] at hkey
    rw [last, AList.lookup_insert_ne (by simpa using hkey.2), hs.ahead key hkey.1]
  · rcases List.mem_append.1 hu with hu | hu
    · rw [last, AList.lookup_insert_ne (hne u hu), hs.last u hu]
    · rw [List.mem_singleton.1 hu, last, AList.lookup_insert]
  · rcases List.mem_append.1 hu with hu | hu
    · obtain ⟨happlied, hfailed⟩ := others _ (hne u hu)
      unfold TreeApplied TreeFailed
      rw [happlied, hfailed]
      exact hs.brought hw u hu
    · rw [List.mem_singleton.1 hu]
      exact brought hw

theorem ScannedStill.start {w : Watcher} (hw : Legible path w) : ScannedStill v w [] w :=
  ⟨.refl w, hw.keyed, fun _ _ => rfl, by simp, by simp⟩

/-- What a scan leaves of the files that stand still. -/
structure ScanLeft (v : World) (w w' : Watcher) : Prop where
  same : SameButTrees w w'
  keyed : Keyed w'.live.runtime.vhosts.sites
  last : TreesLast v w'
  brought : TreesLast v w → ∀ t, Target w'.live.runtime.vhosts.sites t → TreeApplied v w' t ∨ TreeFailed v w' t

/-- When all targets are done the scan is. -/
theorem ScannedStill.done {w w' : Watcher} {targets : List (Site × Path × Str)} (hs : ScannedStill v w targets w')
    (hall : ∀ t, Target w.live.runtime.vhosts.sites t → t ∈ targets) : ScanLeft v w w' := by
  -- a target of the new table was one of the old, its cache aside
  have hold : ∀ t, Target w'.live.runtime.vhosts.sites t → ∃ x, (x, t.2) ∈ targets := by
    intro t ht
    obtain ⟨x, hx, -⟩ := ht.recached hs.same.recached.symm hs.keyed.shared
    exact ⟨x, hall _ hx⟩
  refine ⟨hs.same, hs.keyed, fun t ht => ?_, fun hw t ht => ?_⟩
  · obtain ⟨x, hx⟩ := hold t ht
    exact hs.last (x, t.2) hx
  · obtain ⟨x, hx⟩ := hold t ht
    exact hs.brought hw (x, t.2) hx

theorem scan_still (hv : StandsStill h path v i) {w : Watcher} (hw : Legible path w) :
    Obs.Holds h (fun _ _ => True) (scan c w) i fun w' _ => ScanLeft v w w' := by
  unfold scan
  rw [Obs.holds_bind, Obs.holds_view]
  have hlist := orderTargets_scanList hw.keyed.shared (h i).order
  have hall := fun t (ht : Target w.live.runtime.vhosts.sites t) => ht.mem_orderTargets hw.keyed.shared (h i).order
  generalize orderTargets (h i).order (scanTargets (iter w.live.runtime.vhosts.sites (h i).order)) = targets at *
  refine (hashTargets_silent targets).silent.moments.bind fun sigs j hj => ?_
  refine (Obs.holds_fold_done (P := fun done w' _ => ScannedStill v w done w') (.start hw) ?_).post
    fun w' _ hP => hP.done hall
  intro done t rest hdone w' k hjk hP
  have hmem : t ∈ targets := by
    rw [hdone]
    simp
  have hnot : targetKey t ∉ done.map targetKey := by
    have hn := hlist.keys hw.keyed
    rw [hdone, List.map_append, List.map_cons, List.nodup_append] at hn
    exact fun hin => hn.2.2 _ hin _ List.mem_cons_self rfl
  have hnow : scanned sigs t = v.treeSig t.2.1 := by
    obtain ⟨s, his, -, hnow⟩ := scanned_eq hw.told hlist hj.1 hmem
    rw [hnow, hv.node s (by omega)]
    rfl
  have hlast : TreesLast v w → (w'.treeLast.lookup (targetKey t)).getD (v.treeSig t.2.1) = v.treeSig t.2.1 := by
    intro ht
    rw [hP.ahead _ hnot, ht t (hlist.target t hmem)]
    rfl
  have hsame : ∀ {w2 : Watcher}, SameButTrees w' w2 → SameButTrees w w2 := by
    intro w2 h2
    refine ⟨?_, hP.same.recached.trans h2.recached⟩
    have h1 := hP.same.frame
    rw [← h2.frame] at h1
    exact h1
  refine scanSite_cases (fun hidle => ?_) (fun _ seq failed hfailed hothers => ?_) fun _ cache seq => ⟨trivial, ?_⟩
  · rw [hnow] at hidle ⊢
    exact hP.next hnot (hsame ⟨rfl, .refl _⟩) hP.keyed rfl (fun _ _ => ⟨rfl, rfl⟩) fun ht => .inl (hidle (hlast ht).symm)
  · rw [hnow] at hfailed ⊢
    exact hP.next hnot (hsame ⟨rfl, .refl _⟩) hP.keyed rfl (fun key hkey => ⟨rfl, hothers key hkey⟩) fun _ => .inr hfailed
  · rw [hnow]
    refine hP.next hnot (hsame ⟨rfl, recached_setCache _ _ _⟩) (hP.keyed.setCache _ _) rfl (fun key hkey => ?_) fun _ => .inl ?_
    · exact ⟨AList.lookup_insert_ne hkey, AList.lookup_erase_ne hkey⟩
    · show ((w'.treeApplied.insert (targetKey t) (v.treeSig t.2.1)).lookup (targetKey t)).getD _ = _
      rw [AList.lookup_insert]
      rfl

/-! ## A tick -/

/-- Every input is recorded as applied with the signature it has now, or a failure is recorded with the signatures
of the config and the certificates now and will be retried; every tree is recorded as applied, or its failure is. -/
structure Brought (v : World) (w : Watcher) : Prop where
  inputs : (InputsApplied v w ∧ w.pending = none) ∨
    w.failedAt = some (fileSignature (v.info w.configPath), v.tlsSig w.tlsFiles) ∧ w.retryAt.isSome
  trees : ∀ t, Target w.live.runtime.vhosts.sites t → TreeApplied v w t ∨ TreeFailed v w t

/-- What a tick leaves when the files stand still: it has read them all, and where the tick before had too, they are
recorded as they are now. -/
structure TickStill (v : World) (path : Str) (w w' : Watcher) : Prop where
  legible : Legible path w'
  last : LastStill v w'
  failed : ∀ s, w'.failedAt = some s → s.2 = v.tlsSig w'.tlsFiles
  trees : TreesLast v w'
  brought : LastStill v w → TreesLast v w → (w'.failedAt = none → InputsApplied v w' ∧ w'.pending = none) ∧
    ∀ t, Target w'.live.runtime.vhosts.sites t → TreeApplied v w' t ∨ TreeFailed v w' t

theorem Legible.rescanned {w w' : Watcher} (hw : Legible path w) (hs : ScanLeft v w w') : Legible path w' := by
  refine ⟨(hs.same.get Watcher.configPath).trans hw.configPath, hs.keyed, fun p q hp hq => ?_⟩
  exact hw.told p q (hs.same.recached.served hp) (hs.same.recached.served hq)

theorem LastStill.rescanned {w w' : Watcher} (hw : LastStill v w) (hs : SameButTrees w w') : LastStill v w' := by
  refine ⟨?_, ?_, ?_⟩
  · rw [hs.get Watcher.cfgLast, hs.get Watcher.configPath, hw.config]
  · rw [hs.get Watcher.tlsLast, hs.get Watcher.tlsFiles, hw.tls]
  · rw [hs.get Watcher.linksLast, hs.get Watcher.configPath, hw.links]

theorem InputsApplied.rescanned {w w' : Watcher} (hw : InputsApplied v w) (hs : SameButTrees w w') : InputsApplied v w' :=
  hw.congr (hs.get _) (hs.get _) (hs.get _) (hs.get _) (hs.get _)

theorem tick_still (hv : StandsStill h path v i) {w : Watcher} (hw : Legible path w) {sig : UInt64} (hb : Backed w sig) :
    Obs.Holds h (fun _ _ => True) (tick c w) i fun w' _ => TickStill v path w w' := by
  obtain ⟨r, j, hread, ⟨hr, hdue⟩, hij⟩ := (readInputs_still hv w).run_eq
  have hpath : r.cfgNow = fileSignature (v.info path) ∧ r.linksNow = v.linksOf path :=
    ⟨by rw [hr.config, hw.configPath], by rw [hr.links, hw.configPath]⟩
  -- what the decision leaves, once the readings are kept
  refine tick_holds (P := fun w1 t k => i ≤ k ∧ DecidedStill v path w ⟨w1, t, none⟩) (Q := fun w1 k => i ≤ k ∧
    Legible path w1 ∧ LastStill v w1 ∧ (∀ s, w1.failedAt = some s → s.2 = v.tlsSig w1.tlsFiles) ∧
    (TreesLast v w → TreesLast v w1) ∧ (LastStill v w → w1.failedAt = none → InputsApplied v w1 ∧ w1.pending = none)) hread ?_ ?_ ?_
  · refine (applyInputs_still (hv.later hij) hw hb hr hdue).moments.post fun a k ha => ?_
    exact ⟨hij.trans ha.2, ha.1.legible, ha.1.tlsNow, ha.1.failed, ha.1.trees, ha.1.applied⟩
  · rintro w1 t k ⟨hik, hP⟩
    have hlast : LastStill v { w1 with cfgLast := r.cfgNow, tlsLast := t, linksLast := r.linksNow } := by
      have hp : w1.configPath = path := hP.legible.configPath
      refine ⟨?_, hP.tlsNow, ?_⟩
      · rw [← hp] at hpath
        exact hpath.1
      · rw [← hp] at hpath
        exact hpath.2
    refine ⟨trivial, by omega, hP.legible.core rfl rfl, hlast, hP.failed, fun ht => (hP.trees ht).core rfl rfl,
      fun hl hf => ?_⟩
    obtain ⟨happlied, hpending⟩ := hP.applied hl hf
    exact ⟨happlied.congr rfl rfl rfl rfl rfl, hpending⟩
  · rintro w1 k ⟨hik, hlegible, hlast, hfailed, htrees, happlied⟩
    refine (scan_still (hv.later hik) hlegible).post fun w2 l hs => ⟨trivial, hlegible.rescanned hs,
      hlast.rescanned hs.same, fun s hsome => ?_, hs.last, fun hl ht => ⟨fun hf => ?_, hs.brought (htrees ht)⟩⟩
    · rw [hs.same.get Watcher.tlsFiles]
      exact hfailed s ((hs.same.get Watcher.failedAt).symm.trans hsome)
    obtain ⟨happlied, hpending⟩ := happlied hl ((hs.same.get Watcher.failedAt).symm.trans hf)
    exact ⟨happlied.rescanned hs.same, (hs.same.get Watcher.pending).trans hpending⟩

/-! ## At rest -/

/-- Everything is recorded as applied with the signature it has now, and no listener has to move. -/
structure AtRest (v : World) (w : Watcher) : Prop where
  inputs : InputsApplied v w
  pending : w.pending = none
  trees : ∀ t, Target w.live.runtime.vhosts.sites t → TreeApplied v w t

/-- Two watchers that serve the same, at the same addresses and under the same limits. -/
structure SameService (w w' : Watcher) : Prop where
  live : w'.live = w.live
  listeners : SameListeners w w'

theorem SameService.refl (w : Watcher) : SameService w w := ⟨rfl, .refl w⟩

theorem SameService.trans {a b d : Watcher} (hab : SameService a b) (hbd : SameService b d) : SameService a d := by
  obtain ⟨hab, l1⟩ := hab
  obtain ⟨hbd, l2⟩ := hbd
  exact ⟨hbd.trans hab, l2.https.trans l1.https, l2.http.trans l1.http, l2.loops.trans l1.loops, l2.pending.trans l1.pending,
    l2.maxConnsPerIp.trans l1.maxConnsPerIp, l2.responseSecs.trans l1.responseSecs, l2.vhostsFrom.trans l1.vhostsFrom⟩

theorem AtRest.core {w w' : Watcher} (hw : AtRest v w) (hcore : SameCore w w') (hp : w'.pending = w.pending) :
    AtRest v w' := by
  refine ⟨hw.inputs.core hcore, hp.trans hw.pending, ?_⟩
  unfold TreeApplied
  rw [hcore.live, hcore.treeApplied]
  exact hw.trees

/-- A scan of trees recorded as applied publishes nothing, and keeps nothing but what it read. -/
theorem scan_rest (hv : StandsStill h path v i) {w : Watcher} (hw : Legible path w)
    (htrees : ∀ t, Target w.live.runtime.vhosts.sites t → TreeApplied v w t) :
    Obs.Holds h (fun _ _ => False) (scan c w) i fun w' _ => ∃ last, w' = { w with treeLast := last } := by
  refine scan_holds (P := fun _ w' _ => ∃ last, w' = { w with treeLast := last }) (fun _ _ => ⟨w.treeLast, rfl⟩) ?_
    fun _ _ _ hP => hP
  rintro order sigs targets j htargets hh done t rest hdone w' k hjk ⟨last, rfl⟩
  have hlist : ScanList w.live.runtime.vhosts.sites targets := by
    rw [htargets]
    exact orderTargets_scanList hw.keyed.shared order
  have hmem : t ∈ targets := by
    rw [hdone]
    simp
  obtain ⟨s, his, -, hnow⟩ := scanned_eq hw.told hlist hh hmem
  rw [hv.node s (by omega)] at hnow
  have happlied : (w.treeApplied.lookup (targetKey t)).getD (scanned sigs t) = scanned sigs t := by
    rw [hnow]
    exact htrees t (hlist.target t hmem)
  refine scanSite_cases (fun _ => ⟨_, rfl⟩) (fun hne => absurd happlied hne) fun hne => absurd happlied hne

/-- Applied inputs are unchanged ones. -/
theorem InputsApplied.unchanged {w : Watcher} {r : Readings} (hw : InputsApplied v w) (hr : ReadStill v w r) :
    cfgChanged w r = false ∧ tlsChanged w r = false := by
  constructor
  · rw [cfgChanged, linksChanged, hr.config, hw.config, hr.links]
    cases hl : v.linksOf w.configPath with
    | none => simp
    | some l => simp [hw.links l hl]
  · simp [tlsChanged, hr.tls, hw.tls]

/-- A tick at rest installs nothing and changes nothing of what is served. -/
theorem tick_rest (hv : StandsStill h path v i) {w : Watcher} (hw : Legible path w) (hrest : AtRest v w) :
    Obs.Holds h (fun _ p => p.installs = [] ∧ SameService w p.watcher) (tick c w) i
      fun w' _ => SameService w w' ∧ Legible path w' ∧ AtRest v w' := by
  obtain ⟨r, j, hread, ⟨hr, -⟩, hij⟩ := (readInputs_still hv w).run_eq
  obtain ⟨hcfg, htls⟩ := hrest.inputs.unchanged hr
  have hcore := resetBackoff_core w r.cfgNow r.tlsNow
  have hsame := resetBackoff_listeners w r.cfgNow r.tlsNow
  let Rests (w' : Watcher) : Prop := SameService w w' ∧ Legible path w' ∧ AtRest v w'
  refine tick_holds (P := fun w1 _ k => i ≤ k ∧ Rests w1) (Q := fun w1 k => i ≤ k ∧ Rests w1) hread ?_ ?_ ?_
  · unfold applyInputs
    have hidle : (r.due && (cfgChanged w r || tlsChanged w r ||
        (resetBackoff w r.cfgNow r.tlsNow).pending.isSome)) = false := by
      rw [hcfg, htls, hsame.pending, hrest.pending]
      simp
    simp only [cfgChanged_resetBackoff, tlsChanged_resetBackoff, hidle]
    rw [if_neg (by simp), Obs.holds_pure]
    exact ⟨hij, ⟨hcore.live, hsame⟩, hw.core hcore.configPath (by rw [hcore.live]), hrest.core hcore hsame.pending⟩
  · rintro w1 t k ⟨hik, ⟨hlive, hl⟩, hlegible, hat⟩
    have hlisteners : SameListeners w { w1 with cfgLast := r.cfgNow, tlsLast := t, linksLast := r.linksNow } :=
      ⟨hl.https, hl.http, hl.loops, hl.pending, hl.maxConnsPerIp, hl.responseSecs, hl.vhostsFrom⟩
    refine ⟨⟨rfl, hlive, hlisteners⟩, by omega, ⟨hlive, hlisteners⟩, hlegible.core rfl rfl, ?_⟩
    exact ⟨hat.inputs.congr rfl rfl rfl rfl rfl, hat.pending, hat.trees⟩
  · rintro w1 k ⟨hik, ⟨hlive, hl⟩, hlegible, hat⟩
    refine (scan_rest (hv.later hik) hlegible hat.trees).silent.post ?_
    rintro _ m ⟨last, rfl⟩
    have hservice : SameService w { w1 with treeLast := last } :=
      ⟨hlive, hl.https, hl.http, hl.loops, hl.pending, hl.maxConnsPerIp, hl.responseSecs, hl.vhostsFrom⟩
    exact ⟨⟨rfl, hservice⟩, hservice, hlegible.core rfl rfl, hat.inputs.congr rfl rfl rfl rfl rfl, hat.pending, hat.trees⟩

/-! ## Runs -/

theorem boot_keyed (h : Nat → World) (c : Crates) (path : Str) : Obs.Holds h (fun _ _ => True) (boot c path) 0
    fun x _ => ∀ w, x = .ok w → w.configPath = path ∧ Keyed w.live.runtime.vhosts.sites := by
  refine boot_holds fun cfg s rt seq https http loops j k l _ _ hbuild _ _ _ _ => watchInit_holds ?_
  intro w order m _ hpath _ hlive _ _ _
  refine ⟨trivial, hpath, ?_⟩
  rw [hlive]
  exact ((buildRuntime_read 0 j).of_run hbuild rt rfl).keyed

theorem tick_keyed {w : Watcher} (hw : Keyed w.live.runtime.vhosts.sites) :
    Obs.Holds h (fun _ _ => True) (tick c w) i fun w' _ => Keyed w'.live.runtime.vhosts.sites := by
  obtain ⟨r, j, hread, -, -⟩ := readInputs_run h w i
  refine tick_holds (P := fun w' _ _ => Keyed w'.live.runtime.vhosts.sites)
    (Q := fun w' _ => Keyed w'.live.runtime.vhosts.sites) hread ?_ (fun w1 t k hP => ⟨trivial, hP⟩) fun w1 k hQ => ?_
  · refine applyInputs_holds (P := fun w' _ _ => Keyed w'.live.runtime.vhosts.sites)
      (fun w1 w2 t j k hcore _ hP => by rwa [hcore.live]) (fun _ w0 hcore => ?_) (fun _ w0 hcore => ?_) fun _ _ => hw
    · refine reload_holds (fun seq e k _ => by rwa [hcore.live]) ?_
      intro cfg s rt seq order applied last k l m _ _ hbuild _ _ _ _
      have hkeyed := ((buildRuntime_read w0.buildSeq k).of_run hbuild rt rfl).keyed
      exact ⟨trivial, fun _ _ _ => hkeyed⟩
    · refine reloadTls_holds (fun e k _ => by rwa [hcore.live]) fun cfg tls k _ _ _ => ⟨trivial, ?_⟩
      show Keyed w0.live.runtime.vhosts.sites
      rwa [hcore.live]
  · refine (scan_holds (P := fun _ w' _ => Keyed w'.live.runtime.vhosts.sites) (fun _ _ => hQ) ?_ fun _ _ _ hP => hP).post
      fun w2 l hP => ⟨trivial, hP⟩
    intro order sigs targets j _ _ done t rest _ w' k _ hP
    exact scanSite_holds (fun _ _ _ _ => hP) fun cache total seq _ _ => ⟨trivial, hP.setCache _ _⟩

theorem reached_keyed {w : Watcher} {j : Nat} (hw : Keyed w.live.runtime.vhosts.sites) (k : Nat) :
    Keyed (Obs.reached h (tick c) k w j).1.live.runtime.vhosts.sites := by
  induction k with
  | zero => exact hw
  | succ k ih =>
    rw [Obs.reached_succ]
    exact (tick_keyed ih).2

theorem reached_le {w : Watcher} {j k m : Nat} (hkm : k ≤ m) :
    (Obs.reached h (tick c) k w j).2 ≤ (Obs.reached h (tick c) m w j).2 := by
  induction m, hkm using Nat.le_induction with
  | base => exact le_rfl
  | succ m _ ih =>
    rw [Obs.reached_succ]
    exact ih.trans (Obs.next_ge _ _)

/-- The run from a moment at which the files stand still: every tick reads them as they are. -/
theorem reached_still {w : Watcher} {j k : Nat} (hb : Backed w w.cfgLast)
    (hw : Legible path (Obs.reached h (tick c) k w j).1) (hv : StandsStill h path v (Obs.reached h (tick c) k w j).2)
    {m : Nat} (hkm : k ≤ m) : Legible path (Obs.reached h (tick c) m w j).1 ∧
      TickStill v path (Obs.reached h (tick c) m w j).1 (Obs.reached h (tick c) (m + 1) w j).1 := by
  have hstep : ∀ n, k ≤ n → Legible path (Obs.reached h (tick c) n w j).1 →
      TickStill v path (Obs.reached h (tick c) n w j).1 (Obs.reached h (tick c) (n + 1) w j).1 := by
    intro n hkn hn
    rw [Obs.reached_succ]
    exact (tick_still (hv.later (reached_le hkn)) hn (reached_backed hb n).1).2
  induction m, hkm using Nat.le_induction with
  | base => exact ⟨hw, hstep k le_rfl hw⟩
  | succ m hkm ih => exact ⟨ih.2.legible, hstep (m + 1) (by omega) ih.2.legible⟩

/-- From a state at rest on, the service stays. -/
theorem reached_rest {w : Watcher} {j m n : Nat} (hw : Legible path (Obs.reached h (tick c) m w j).1)
    (hv : StandsStill h path v (Obs.reached h (tick c) m w j).2) (hrest : AtRest v (Obs.reached h (tick c) m w j).1)
    (hmn : m ≤ n) : SameService (Obs.reached h (tick c) m w j).1 (Obs.reached h (tick c) n w j).1 ∧
      Legible path (Obs.reached h (tick c) n w j).1 ∧ AtRest v (Obs.reached h (tick c) n w j).1 := by
  induction n, hmn using Nat.le_induction with
  | base => exact ⟨.refl _, hw, hrest⟩
  | succ n hmn ih =>
    obtain ⟨hservice, hlegible, hat⟩ := ih
    have htick := (tick_rest (c := c) (hv.later (reached_le hmn)) hlegible hat).2
    rw [Obs.reached_succ]
    exact ⟨hservice.trans htick.1, htick.2⟩

theorem boot_legible {w : Watcher} {j : Nat} {l : List (Nat × Publication)} (hrun : (boot c path).run h 0 = ⟨.ok w, j, l⟩)
    {k : Nat} (htold : Told (Obs.reached h (tick c) k w j).1.live.runtime.vhosts.sites) :
    Legible path (Obs.reached h (tick c) k w j).1 := by
  obtain ⟨hpath, hkeyed⟩ := (boot_keyed h c path).of_run hrun w rfl
  have hb := (boot_backed h c path).of_run hrun w rfl
  exact ⟨(reached_backed hb k).2.trans hpath, reached_keyed hkeyed k, htold⟩

/-- Two ticks record everything as it is, or its failure; without a failure all is recorded as applied. -/
theorem reached_brought {w : Watcher} {j k : Nat} (hb : Backed w w.cfgLast)
    (hw : Legible path (Obs.reached h (tick c) k w j).1) (hv : StandsStill h path v (Obs.reached h (tick c) k w j).2)
    {m : Nat} (hkm : k + 2 ≤ m) : Brought v (Obs.reached h (tick c) m w j).1 ∧
      ((Obs.reached h (tick c) m w j).1.failedAt = none →
        (∀ t, Target (Obs.reached h (tick c) m w j).1.live.runtime.vhosts.sites t →
          ¬ TreeFailed v (Obs.reached h (tick c) m w j).1 t) → AtRest v (Obs.reached h (tick c) m w j).1) := by
  obtain ⟨m, rfl⟩ : ∃ m', m = m' + 2 := ⟨m - 2, by omega⟩
  have hread := (reached_still hb hw hv (by omega : k ≤ m)).2
  have hthen := (reached_still hb hw hv (by omega : k ≤ m + 1)).2
  obtain ⟨hinputs, htrees⟩ := hthen.brought hread.last hread.trees
  have hbacked := (reached_backed (h := h) (c := c) (j := j) hb (m + 2)).1
  refine ⟨⟨?_, htrees⟩, fun hf hno => ?_⟩
  · cases hf : (Obs.reached h (tick c) (m + 1 + 1) w j).1.failedAt with
    | none => exact .inl (hinputs hf)
    | some s =>
      have hversion := hbacked.version s hf
      rw [hthen.last.config] at hversion
      refine .inr ⟨?_, hbacked.timed.2 (by rw [hf]; rfl)⟩
      exact congrArg some (Prod.ext hversion (hthen.failed s hf))
  · obtain ⟨happlied, hpending⟩ := hinputs hf
    exact ⟨happlied, hpending, fun t ht => (htrees t ht).resolve_right (hno t ht)⟩

/-- The watcher converges in what it records. Whatever happened before, once the files stand still from the start of a
tick on, the second tick that follows and all later ones leave every input recorded as applied with the signature it has
now, or a failure of these signatures recorded and a retry timed; where no failure is recorded all is recorded as
applied; and from a state with all of it recorded so, no tick installs anything or changes what is served. That the
live data are those of the files takes more: an edit can change between the sample and the load, `Restart` has the
conditions. -/
theorem process_converges (c : Crates) (path : Str) (h : Nat → World) {w : Watcher} {j : Nat}
    {l : List (Nat × Publication)} (hrun : (boot c path).run h 0 = ⟨.ok w, j, l⟩) {k : Nat} {v : World}
    (hv : StandsStill h path v (Obs.reached h (tick c) k w j).2)
    (htold : Told (Obs.reached h (tick c) k w j).1.live.runtime.vhosts.sites) :
    (∀ m, k + 2 ≤ m → Brought v (Obs.reached h (tick c) m w j).1 ∧
      ((Obs.reached h (tick c) m w j).1.failedAt = none →
        (∀ t, Target (Obs.reached h (tick c) m w j).1.live.runtime.vhosts.sites t →
          ¬ TreeFailed v (Obs.reached h (tick c) m w j).1 t) → AtRest v (Obs.reached h (tick c) m w j).1)) ∧
    ∀ m n, k ≤ m → m ≤ n → AtRest v (Obs.reached h (tick c) m w j).1 →
      SameService (Obs.reached h (tick c) m w j).1 (Obs.reached h (tick c) n w j).1 ∧
      ∀ e ∈ ((tick c (Obs.reached h (tick c) n w j).1).run h (Obs.reached h (tick c) n w j).2).trace,
        e.2.installs = [] ∧ SameService (Obs.reached h (tick c) m w j).1 e.2.watcher := by
  have hb := (boot_backed h c path).of_run hrun w rfl
  have hw := boot_legible hrun htold
  refine ⟨fun m hkm => reached_brought hb hw hv hkm, fun m n hkm hmn hrest => ?_⟩
  have hvm := hv.later (reached_le hkm)
  obtain ⟨hservice, hlegible, hat⟩ := reached_rest (reached_still hb hw hv hkm).1 hvm hrest hmn
  refine ⟨hservice, fun e he => ?_⟩
  obtain ⟨hnone, hsame⟩ := (tick_rest (hvm.later (reached_le hmn)) hlegible hat).1 e he
  exact ⟨hnone, hservice.trans hsame⟩

/-- A deploy at time 22: a second site in the config and a new file under the root of the first. -/
def deployed (k : Nat) : World :=
  { movedAt 0 k with
    info := fun p => some ⟨1, some (if p = confPath ∧ 22 ≤ k then 2 else 1)⟩
    text := fun p =>
      if p = confPath then
        .ok (if 22 ≤ k then
          rootConf ++ str "site b.example \x7b\n cert = /c\n key = /k\n redirect /old/* -> /new/$1\n\x7d\n" else rootConf)
      else .error [] }

theorem deployed_still : StandsStill deployed confPath (deployed 22) 22 := by
  have hle : ∀ k, 22 ≤ k → deployed k = deployed 22 := by
    intro k hk
    simp only [deployed, movedAt, hk, and_true, if_true, Nat.le_refl]
    simp
  exact ⟨fun k hk => by rw [hle k hk], fun k hk => by rw [hle k hk], fun k hk => by rw [hle k hk],
    fun k hk => by rw [hle k hk], fun _ _ _ _ _ _ _ => rfl⟩

/-- Sites of one root. -/
theorem told_of_one {sites : Sites} {root : Path} (hall : ∀ s ∈ Map.values sites, s.root = some root) : Told sites := by
  rintro p q ⟨host, site, hl, hroot⟩ ⟨host', site', hl', hroot'⟩ _
  have hp := hall site (Map.mem_values.2 ⟨host, hl⟩)
  have hq := hall site' (Map.mem_values.2 ⟨host', hl'⟩)
  exact Option.some.inj (hroot.symm.trans (hp.trans (hq.symm.trans hroot')))

/-- Two ticks bring the deploy, and the ticks after that leave it. -/
theorem process_converges_deployed : ∃ w j l, (boot anyPem confPath).run deployed 0 = ⟨.ok w, j, l⟩ ∧
    AtRest (deployed 22) (Obs.reached deployed (tick anyPem) 2 w j).1 ∧
    ¬ AtRest (deployed 22) (Obs.reached deployed (tick anyPem) 1 w j).1 ∧
    SameService (Obs.reached deployed (tick anyPem) 2 w j).1 (Obs.reached deployed (tick anyPem) 9 w j).1 := by
  obtain ⟨w, j, l, hrun, hok⟩ := boot_of_any (c := anyPem) (h := deployed) confPath (fun w j =>
    decide (22 ≤ j) && w.live.runtime.vhosts.sites.values.all (fun s => s.root == some (str "/second")) &&
    (Obs.reached deployed (tick anyPem) 2 w j).1.failedAt.isNone &&
    (Obs.reached deployed (tick anyPem) 2 w j).1.treeFailed.entries.isEmpty &&
    decide ((Obs.reached deployed (tick anyPem) 1 w j).1.cfgApplied ≠ fileSignature ((deployed 22).info confPath)) &&
    decide ((Obs.reached deployed (tick anyPem) 1 w j).1.configPath = confPath)) (by decide +kernel)
  simp only [Bool.and_eq_true, decide_eq_true_eq, List.all_eq_true, beq_iff_eq, Option.isNone_iff_eq_none,
    List.isEmpty_iff] at hok
  obtain ⟨⟨⟨⟨⟨hj, hroots⟩, hfailed⟩, hempty⟩, hold⟩, hpath⟩ := hok
  have htold := told_of_one hroots
  obtain ⟨hbrought, hstays⟩ := process_converges anyPem confPath deployed hrun (k := 0) (deployed_still.later hj) htold
  have hrest := (hbrought 2 le_rfl).2 hfailed fun t _ hf => by
    rw [TreeFailed, AList.lookup, hempty] at hf
    cases hf
  refine ⟨w, j, l, hrun, hrest, fun hat => hold ?_, (hstays 2 9 (by decide) (by decide) hrest).1⟩
  rw [hat.inputs.config, hpath]

end BareServer
