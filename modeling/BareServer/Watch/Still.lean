/-
Files that stand still (`main.rs`, `watch`): from some moment on nothing that the watcher reads of them changes,
whatever the clock, the sockets, the order of the hash maps and the room on the disk do. What each read of a tick
gives then, and what each arm of the tick leaves.
-/
import BareServer.Watch.Debounce
import BareServer.Watch.Retry

namespace BareServer

open BareServer.Lib

variable {h : Nat → World} {c : Crates} {path : Str} {v : World} {i : Nat}

/-! ## Targets -/

/-- Every target of a table is scanned. -/
theorem Target.mem_scanTargets {sites : Sites} (hs : sites.Shared) {t : Site × Path × Str} (ht : Target sites t)
    (o : HashOrder) : t ∈ scanTargets (iter sites o) := by
  obtain ⟨u, hu, hid⟩ := (scanTargets_covers (iter sites o)).all t.2.2 t.1 (mem_iter.2 ht.lookup)
    (by rw [ht.root]; rfl)
  have hut := BareServer.mem_scanTargets hs hu
  have hsite : u.1 = t.1 := hs _ _ _ _ hut.lookup ht.lookup hid
  have hroot : u.2.1 = t.2.1 := by
    have hr := hut.root
    rw [hsite, ht.root] at hr
    exact (Option.some.inj hr).symm
  -- both hosts are the least of one site
  have hhost : u.2.2 = t.2.2 :=
    List.le_antisymm (List.not_lt.1 (hut.least _ (by rw [hsite, ht.lookup])))
      (List.not_lt.1 (ht.least _ (by rw [← hsite, hut.lookup])))
  have heq : u = t := Prod.ext hsite (Prod.ext hroot hhost)
  rwa [← heq]

theorem Target.mem_orderTargets {sites : Sites} (hs : sites.Shared) {t : Site × Path × Str} (ht : Target sites t)
    (o : HashOrder) : t ∈ orderTargets o (scanTargets (iter sites o)) := by
  have hmem := ht.mem_scanTargets hs o
  have hin : t.2.2 ∈ o.list ((scanTargets (iter sites o)).map fun u => u.2.2) :=
    (o.perm _).mem_iff.2 (List.mem_map_of_mem hmem)
  refine List.mem_filterMap.2 ⟨t.2.2, hin, ?_⟩
  have hsome : ((scanTargets (iter sites o)).find? fun u => u.2.2 == t.2.2).isSome :=
    List.find?_isSome.2 ⟨t, hmem, by simp⟩
  obtain ⟨u, hu⟩ := Option.isSome_iff_exists.1 hsome
  obtain ⟨hu', hhost⟩ := find_host hu
  rw [hu, List.inj_on_of_nodup_map (scanTargets_hosts hs o) hu' hmem hhost]

/-- Of a target's key there is one root: its host has one site. -/
theorem Keyed.one_root {sites : Sites} (hk : Keyed sites) {t : Site × Path × Str} (ht : Target sites t) (o : HashOrder) :
    ∀ hr ∈ BareServer.rooted (iter sites o), siteKey hr.1 (display hr.2) = targetKey t → hr.2 = t.2.1 := by
  rintro ⟨host, root⟩ hmem hkey
  obtain ⟨site, hsite, hroot⟩ := mem_rooted.1 hmem
  have hlook := mem_iter.1 hsite
  have hhost := (siteKey_inj (nul_notMem_display (hk.noNul root ⟨host, site, hlook, hroot⟩))
    (nul_notMem_display (hk.noNul _ ht.served)) hkey).1
  simp only at hhost
  rw [hhost, ht.lookup] at hlook
  cases hlook
  exact Option.some.inj (hroot.symm.trans ht.root)

/-! ## Reading -/

/-- What a root's tree signs as. -/
def World.treeSig (v : World) (root : Path) : UInt64 := treeSignature (v.node root)

/-- What some files sign as together. -/
def World.tlsSig (v : World) (paths : List Str) : UInt64 := tlsSignature (paths.map v.info)

/-- What each root of a config resolves to. -/
def World.links (v : World) (cfg : Config) : List (Str × Path) := cfg.roots.map fun r => (r, v.resolve r)

/-- The same for the config file as it reads. -/
def World.linksOf (v : World) (path : Str) : Option (List (Str × Path)) :=
  (v.load path).toOption.map fun cfg => v.links cfg.cfg

/-- From a moment on the files are those of `v`, and the texts of the roots of its config tell them apart. -/
structure StandsStill (h : Nat → World) (path : Str) (v : World) (i : Nat) : Prop where
  info : ∀ k, i ≤ k → (h k).info = v.info
  text : ∀ k, i ≤ k → (h k).text = v.text
  canonicalize : ∀ k, i ≤ k → (h k).canonicalize = v.canonicalize
  node : ∀ k, i ≤ k → (h k).node = v.node
  told : ∀ cfg, v.load path = .ok cfg → ∀ q ∈ cfg.cfg.roots, ∀ q' ∈ cfg.cfg.roots,
    display (v.resolve q) = display (v.resolve q') → v.resolve q = v.resolve q'

theorem StandsStill.later (hv : StandsStill h path v i) {j : Nat} (hij : i ≤ j) : StandsStill h path v j :=
  ⟨fun k hk => hv.info k (hij.trans hk), fun k hk => hv.text k (hij.trans hk),
    fun k hk => hv.canonicalize k (hij.trans hk), fun k hk => hv.node k (hij.trans hk), hv.told⟩

theorem StandsStill.load (hv : StandsStill h path v i) {k : Nat} (hik : i ≤ k) (p : Str) :
    (h k).load p = v.load p := by
  unfold World.load
  rw [hv.text k hik]

theorem StandsStill.resolve (hv : StandsStill h path v i) {k : Nat} (hik : i ≤ k) (r : Str) :
    (h k).resolve r = v.resolve r := by
  unfold World.resolve
  rw [hv.canonicalize k hik]

section

variable {E : Type}

theorem tlsSignatureOf_still (hv : StandsStill h path v i) (paths : List Str) :
    Obs.Holds h (fun _ _ => False) (tlsSignatureOf paths : Look E _) i fun sig _ => sig = v.tlsSig paths := by
  refine (tlsSignatureOf_silent paths i).post ?_
  rintro sig j ⟨infos, rfl, hinfos⟩
  have heq : infos = paths.map v.info := by
    induction hinfos with
    | nil => rfl
    | cons hp _ ih =>
      obtain ⟨k, hik, -, rfl⟩ := hp
      rw [List.map_cons, ih, hv.info k hik]
  rw [heq, World.tlsSig]

theorem rootLinks_still (hv : StandsStill h path v i) (cfg : Config) :
    Obs.Holds h (fun _ _ => False) (rootLinks cfg : Look E _) i fun links _ => links = v.links cfg := by
  unfold rootLinks resolveRoot World.links
  generalize cfg.roots = roots
  refine (Obs.holds_each (P := fun r l _ => l = (r, v.resolve r)) (fun _ _ _ _ hl _ => hl) fun r _ j hij => ?_).post ?_
  · rw [Obs.holds_bind, Obs.holds_view, Obs.holds_pure, hv.resolve hij]
  · intro links _ hlinks
    induction hlinks with
    | nil => rfl
    | cons hl _ ih => rw [List.map_cons, ← ih, hl]

theorem rootLinksOf_still (hv : StandsStill h path v i) (p : Str) :
    Obs.Holds h (fun _ _ => False) (rootLinksOf p : Look E _) i fun links _ => links = v.linksOf p := by
  unfold rootLinksOf loadConfig World.linksOf
  rw [Obs.holds_bind, Obs.holds_view, hv.load le_rfl]
  cases v.load p with
  | error e => simp [Except.toOption]
  | ok cfg =>
    refine (rootLinks_still (hv.later (Nat.le_succ i)) cfg.cfg).bind fun links _ hl => ?_
    rw [Obs.holds_pure, hl]
    rfl

/-- What a sample holds of files that stand still. -/
structure SampledStill (v : World) (path : Str) (cfg : Config) (s : Sampled) : Prop where
  config : s.config = fileSignature (v.info path)
  tlsFiles : s.tlsFiles = tlsPaths cfg
  tls : s.tls = v.tlsSig (tlsPaths cfg)
  links : s.links = v.links cfg

theorem sample_still (hv : StandsStill h path v i) (p : Str) (cfg : Config) :
    Obs.Holds h (fun _ _ => False) (sample p cfg : Look E _) i fun s _ => SampledStill v p cfg s := by
  unfold sample fileSignatureOf
  rw [Obs.holds_bind, Obs.holds_view, hv.info i le_rfl]
  refine (tlsSignatureOf_still (hv.later (Nat.le_succ i)) _).moments.bind fun tls j htls => ?_
  have htrees : Obs.Holds h (fun _ _ => False) (Obs.fold sampleTree ∅ cfg.roots : Look E _) j fun _ _ => True := by
    refine Obs.holds_fold_done (P := fun _ _ _ => True) trivial fun done r _ _ trees k _ _ => ?_
    unfold sampleTree resolveRoot
    rw [Obs.holds_bind, Obs.holds_view]
    exact (hashTree_silent _ _ _).post fun _ _ _ => trivial
  refine htrees.moments.bind fun trees k hk => ?_
  refine (rootLinks_still (hv.later (by omega : i ≤ k)) cfg).bind fun links _ hlinks => ?_
  rw [Obs.holds_pure]
  exact ⟨rfl, rfl, htls.1, hlinks⟩

end

/-- What a tick reads of files that stand still. -/
structure ReadStill (v : World) (w : Watcher) (r : Readings) : Prop where
  config : r.cfgNow = fileSignature (v.info w.configPath)
  tls : r.tlsNow = v.tlsSig w.tlsFiles
  links : r.linksNow = v.linksOf w.configPath

/-- The tick is due unless a failure waits for its retry. -/
theorem readInputs_still (hv : StandsStill h path v i) (w : Watcher) :
    Obs.Holds h (fun _ _ => False) (readInputs w) i fun r _ =>
      ReadStill v w r ∧ ((resetBackoff w r.cfgNow r.tlsNow).retryAt = none → r.due = true) := by
  unfold readInputs fileSignatureOf
  rw [Obs.holds_bind, Obs.holds_view, hv.info i le_rfl]
  refine (tlsSignatureOf_still (hv.later (Nat.le_succ i)) _).moments.bind fun tlsNow j htls => ?_
  refine (rootLinksOf_still (hv.later (by omega : i ≤ j)) _).bind fun links k hlinks => ?_
  split
  · rw [Obs.holds_pure]
    exact ⟨⟨rfl, htls.1, hlinks⟩, fun _ => rfl⟩
  · rename_i t ht
    rw [Obs.holds_bind, Obs.holds_view, Obs.holds_pure]
    exact ⟨⟨rfl, htls.1, hlinks⟩, fun hnone => by simp [hnone] at ht⟩

/-! ## States -/

/-- What the last tick read is what the files are now. -/
structure LastStill (v : World) (w : Watcher) : Prop where
  config : w.cfgLast = fileSignature (v.info w.configPath)
  tls : w.tlsLast = v.tlsSig w.tlsFiles
  links : w.linksLast = v.linksOf w.configPath

/-- The last signature of every target is that of its tree now. -/
def TreesLast (v : World) (w : Watcher) : Prop :=
  ∀ t, Target w.live.runtime.vhosts.sites t → w.treeLast.lookup (targetKey t) = some (v.treeSig t.2.1)

/-- The config, the certificates and the links are recorded as applied with the signatures and targets that they have
now. -/
structure InputsApplied (v : World) (w : Watcher) : Prop where
  config : w.cfgApplied = fileSignature (v.info w.configPath)
  tls : w.tlsApplied = v.tlsSig w.tlsFiles
  links : ∀ l, v.linksOf w.configPath = some l → w.linksApplied = l

/-- A target's tree is recorded as applied with the signature that it has now, or has no record: the scan takes
it as unchanged then. -/
def TreeApplied (v : World) (w : Watcher) (t : Site × Path × Str) : Prop :=
  (w.treeApplied.lookup (targetKey t)).getD (v.treeSig t.2.1) = v.treeSig t.2.1

/-- A failed build of a target's tree is recorded with the signature that it has now. -/
def TreeFailed (v : World) (w : Watcher) (t : Site × Path × Str) : Prop :=
  w.treeFailed.lookup (targetKey t) = some (v.treeSig t.2.1)

/-- A table whose targets have keys of their own, and roots that their texts tell apart. -/
structure Legible (path : Str) (w : Watcher) : Prop where
  configPath : w.configPath = path
  keyed : Keyed w.live.runtime.vhosts.sites
  told : Told w.live.runtime.vhosts.sites

theorem Legible.core {w w' : Watcher} (hw : Legible path w) (hp : w'.configPath = w.configPath)
    (hl : w'.live.runtime.vhosts = w.live.runtime.vhosts) : Legible path w' := by
  refine ⟨hp.trans hw.configPath, ?_, ?_⟩ <;> rw [hl]
  · exact hw.keyed
  · exact hw.told

theorem InputsApplied.congr {w w' : Watcher} (hw : InputsApplied v w) (hp : w'.configPath = w.configPath)
    (hf : w'.tlsFiles = w.tlsFiles) (hc : w'.cfgApplied = w.cfgApplied) (ht : w'.tlsApplied = w.tlsApplied)
    (hl : w'.linksApplied = w.linksApplied) : InputsApplied v w' := by
  refine ⟨?_, ?_, fun l hlinks => ?_⟩
  · rw [hc, hp, hw.config]
  · rw [ht, hf, hw.tls]
  · rw [hl]
    exact hw.links l (by rwa [hp] at hlinks)

theorem InputsApplied.core {w w' : Watcher} (hw : InputsApplied v w) (hcore : SameCore w w') : InputsApplied v w' :=
  hw.congr hcore.configPath hcore.tlsFiles hcore.cfgApplied hcore.tlsApplied hcore.linksApplied

/-- A config and links that a tick finds as the last one did, and unchanged, are recorded as applied. -/
theorem LastStill.config_applied {w : Watcher} {r : Readings} (hw : LastStill v w) (hr : ReadStill v w r)
    (hcfg : cfgChanged w r = false) : w.cfgApplied = fileSignature (v.info w.configPath) ∧
      ∀ l, v.linksOf w.configPath = some l → w.linksApplied = l := by
  simp only [cfgChanged, linksChanged, hr.config, hr.links, hw.config, hw.links, Bool.or_eq_false_iff,
    decide_true, Bool.and_true, decide_eq_false_iff_not, not_not] at hcfg
  refine ⟨hcfg.1.symm, fun l hl => ?_⟩
  have hlinks := hcfg.2
  rw [hl] at hlinks
  have hsame : l = w.linksApplied := by simpa using hlinks
  exact hsame.symm

theorem LastStill.tls_applied {w : Watcher} {r : Readings} (hw : LastStill v w) (hr : ReadStill v w r)
    (htls : tlsChanged w r = false) : w.tlsApplied = v.tlsSig w.tlsFiles := by
  simp only [tlsChanged, hr.tls, hw.tls, decide_true, Bool.and_true, decide_eq_false_iff_not, not_not] at htls
  exact htls.symm

/-! ## The arms -/

/-- The fresh signatures of a new table: those of the trees now. -/
theorem seedTrees_last (trees : Map Str UInt64) (host : Str) (root : Path) : ∀ (roots : List (Str × Path))
    (maps : Map Str UInt64 × Map Str UInt64) (i : Nat), StandsStill h path v i →
    (∀ hr ∈ roots, siteKey hr.1 (display hr.2) = siteKey host (display root) → hr.2 = root) →
    Obs.Holds h (fun _ _ => False) (seedTrees trees roots maps) i fun maps' _ =>
      (host, root) ∈ roots ∨ maps.2.lookup (siteKey host (display root)) = some (v.treeSig root) →
        maps'.2.lookup (siteKey host (display root)) = some (v.treeSig root)
  | [], _, _, _, _ => by
    rw [seedTrees, Obs.holds_pure]
    simp
  | (host', root') :: rest, (applied, last), i, hv, hkeys => by
    unfold seedTrees treeSignatureOf
    refine (preTree_silent trees root' i).moments.bind fun pre j hj => ?_
    rw [Obs.holds_bind, Obs.holds_view, hv.node j hj.2]
    refine (seedTrees_last trees host root rest _ (j + 1) (hv.later (by omega)) fun hr hmem =>
      hkeys hr (List.mem_cons_of_mem _ hmem)).post fun maps' _ hmaps hin => hmaps ?_
    by_cases hkey : siteKey host (display root) = siteKey host' (display root')
    · right
      have hroot : root' = root := hkeys (host', root') List.mem_cons_self hkey.symm
      rw [hkey, AList.lookup_insert, hroot]
      rfl
    · rw [AList.lookup_insert_ne hkey]
      exact hin.imp_left (mem_tail_of_key hkey)

/-- A runtime is built steadily from files that stand still. -/
theorem StandsStill.steady (hv : StandsStill h path v i) {cfg : Loaded} (hload : v.load path = .ok cfg) (e : Nat) :
    SteadyBuild h i e cfg.cfg := by
  refine ⟨fun r _ k hk _ => ?_, fun r hr r' hr' hd => ?_⟩
  · rw [hv.canonicalize k hk, hv.canonicalize i le_rfl]
  · rw [hv.resolve le_rfl, hv.resolve le_rfl] at hd ⊢
    exact hv.told cfg hload r hr r' hr' hd

/-- What the arm of a tick leaves when the files stand still. -/
structure ArmStill (v : World) (path : Str) (w : Watcher) (a : Armed) : Prop where
  legible : Legible path a.watcher
  tlsNow : a.tlsNow = v.tlsSig a.watcher.tlsFiles
  trees : TreesLast v w → TreesLast v a.watcher
  applied : LastStill v w → a.failure = none → InputsApplied v a.watcher

theorem reload_still (hv : StandsStill h path v i) {w : Watcher} {r : Readings} (hw : Legible path w)
    (hr : ReadStill v w r) :
    Obs.Holds h (fun _ _ => True) (reload c w r.cfgNow r.tlsNow) i fun a _ => ArmStill v path w a := by
  have hpath := hw.configPath
  subst hpath
  unfold reload
  rw [Obs.holds_bind, holds_loadConfig, hv.load le_rfl]
  cases hload : v.load w.configPath with
  | error e =>
    rw [Obs.holds_pure]
    exact ⟨hw, hr.tls, id, fun _ hf => by cases hf⟩
  | ok cfg =>
    refine (sample_still (hv.later (Nat.le_succ i)) w.configPath cfg.cfg).bind_run fun s j hsample hij hs => ?_
    refine (buildRuntime_from w.buildSeq j).bind_run fun x k hbuild hjk _ => ?_
    obtain ⟨x, seq⟩ := x
    cases x with
    | error e =>
      rw [Obs.holds_pure]
      exact ⟨hw.core rfl rfl, hr.tls, id, fun _ hf => by cases hf⟩
    | ok rt =>
      have hsteady := (hv.later (Nat.le_succ i)).steady hload k
      have htable := hsteady.sampledTable hsample hbuild hij hjk
      simp only
      rw [Obs.holds_bind, Obs.holds_view]
      obtain ⟨hnul, hroots⟩ := htable.keyed.rooted (h k).order
      refine (seedTrees_silent s.trees _ (∅, ∅) (k + 1)).bind_run fun maps l hseed hkl _ => ?_
      obtain ⟨applied, last⟩ := maps
      rw [Obs.holds_bind, Obs.holds_publish]
      refine ⟨trivial, ?_⟩
      refine (tlsSignatureOf_still (hv.later (by omega : i ≤ l + 1)) _).silent.bind fun t m ht => ?_
      rw [Obs.holds_pure]
      refine ⟨⟨rfl, htable.keyed, htable.told⟩, ht, fun _ t ht => ?_, fun _ _ => ⟨hr.config, ?_, fun l hl => ?_⟩⟩
      · exact (seedTrees_last s.trees t.2.2 t.2.1 _ (∅, ∅) (k + 1) (hv.later (by omega))
          (htable.keyed.one_root ht _)).of_run hseed (.inl (hroots t ht).2)
      · show s.tls = v.tlsSig s.tlsFiles
        rw [hs.tls, hs.tlsFiles]
      · show s.links = l
        have hlinks : v.linksOf w.configPath = some l := hl
        rw [World.linksOf, hload] at hlinks
        rw [hs.links]
        exact Option.some.inj hlinks

theorem reloadTls_still {w : Watcher} {r : Readings} (hw : Legible path w) (hr : ReadStill v w r)
    (hcfg : cfgChanged w r = false) :
    Obs.Holds h (fun _ _ => True) (reloadTls c w r.tlsNow) i fun a _ => ArmStill v path w a := by
  refine reloadTls_holds (fun e k _ => ⟨hw, hr.tls, id, fun _ hf => by cases hf⟩) fun cfg tls k _ _ _ => ?_
  refine ⟨trivial, hw.core rfl rfl, hr.tls, id, fun hlast _ => ?_⟩
  obtain ⟨hconfig, hlinks⟩ := hlast.config_applied hr hcfg
  exact ⟨hconfig, hr.tls, hlinks⟩

theorem takeArm_still (hv : StandsStill h path v i) {w : Watcher} {r : Readings} (hw : Legible path w)
    (hr : ReadStill v w r) : Obs.Holds h (fun _ _ => True) (takeArm c w r) i fun a _ => ArmStill v path w a := by
  unfold takeArm
  split
  · exact reload_still hv hw hr
  · rename_i hcfg
    split
    · exact reloadTls_still hw hr (by simpa using hcfg)
    · rename_i htls
      rw [Obs.holds_pure]
      refine ⟨hw, hr.tls, id, fun hlast _ => ?_⟩
      obtain ⟨hconfig, hlinks⟩ := hlast.config_applied hr (by simpa using hcfg)
      exact ⟨hconfig, hlast.tls_applied hr (by simpa using htls), hlinks⟩

/-! ## Listeners and retries -/

/-- A reconciliation without a failure comes after an arm without one, and leaves nothing pending. -/
theorem reconcile_failure (a : Armed) (i : Nat) : Obs.Holds h (fun _ _ => False) (reconcile a) i fun b _ =>
    b.failure = none → a.failure = none ∧ b.watcher.pending = none := by
  refine reconcile_holds (fun hp hf => ⟨hf, hp⟩) (fun x y e _ _ _ hf => ?_) (fun x b e j _ _ _ _ hf => ?_)
    fun x y j k _ _ _ _ hf => ⟨hf, rfl⟩ <;> simp at hf

/-- What settling records: the failure of this version, or none. -/
theorem settle_failure (cfgNow : UInt64) (a : Armed) (i : Nat) : Obs.Holds h (fun _ _ => False) (settle cfgNow a) i
    fun b _ => b.watcher.pending = a.watcher.pending ∧ (b.watcher.failedAt = none → a.failure = none) ∧
      ∀ s, b.watcher.failedAt = some s → s = (cfgNow, a.tlsNow) := by
  unfold settle
  split
  · rename_i hf
    rw [Obs.holds_pure]
    exact ⟨rfl, fun _ => hf, fun _ hs => by cases hs⟩
  · simp only [Obs.holds_bind, Obs.holds_view, Obs.holds_pure]
    refine ⟨?_, fun hf => ?_, fun _ hs => (Option.some.inj hs).symm⟩
    · trivial
    · cases hf

/-- The reset leaves no failure but one of the version that is read now. -/
theorem resetBackoff_failure {w : Watcher} {cfgNow tlsNow : UInt64} {s : UInt64 × UInt64}
    (hs : (resetBackoff w cfgNow tlsNow).failedAt = some s) : s = (cfgNow, tlsNow) := by
  unfold resetBackoff at hs
  split at hs
  · split at hs
    · cases hs
    · rename_i hf hsame
      rw [hf, Option.some.injEq] at hs
      rw [← hs]
      exact Decidable.not_not.1 hsame
  · rename_i hf
    rw [hf] at hs
    cases hs

/-- What the first part of a tick leaves when the files stand still. -/
structure DecidedStill (v : World) (path : Str) (w : Watcher) (a : Armed) : Prop where
  legible : Legible path a.watcher
  tlsNow : a.tlsNow = v.tlsSig a.watcher.tlsFiles
  failed : ∀ s, a.watcher.failedAt = some s → s.2 = v.tlsSig a.watcher.tlsFiles
  trees : TreesLast v w → TreesLast v a.watcher
  applied : LastStill v w → a.watcher.failedAt = none → InputsApplied v a.watcher ∧ a.watcher.pending = none

theorem LastStill.reset {w : Watcher} (hw : LastStill v w) (a b : UInt64) : LastStill v (resetBackoff w a b) := by
  obtain ⟨hc, ht, hl⟩ := resetBackoff_last w a b
  have hcore := resetBackoff_core w a b
  refine ⟨?_, ?_, ?_⟩
  · rw [hc, hcore.configPath, hw.config]
  · rw [ht, hcore.tlsFiles, hw.tls]
  · rw [hl, hcore.configPath, hw.links]

theorem TreesLast.core {w w' : Watcher} (hw : TreesLast v w) (hl : w'.live.runtime.vhosts = w.live.runtime.vhosts)
    (ht : w'.treeLast = w.treeLast) : TreesLast v w' := by
  unfold TreesLast
  rw [hl, ht]
  exact hw

theorem applyInputs_still (hv : StandsStill h path v i) {w : Watcher} {r : Readings} (hw : Legible path w)
    {sig : UInt64} (hb : Backed w sig) (hr : ReadStill v w r)
    (hdue : (resetBackoff w r.cfgNow r.tlsNow).retryAt = none → r.due = true) :
    Obs.Holds h (fun _ _ => True) (applyInputs c w r) i fun a _ => DecidedStill v path w a := by
  have hcore := resetBackoff_core w r.cfgNow r.tlsNow
  obtain ⟨-, hreset, -⟩ := @resetBackoff_backed _ _ r.cfgNow r.tlsNow hb
  have hvhosts : (resetBackoff w r.cfgNow r.tlsNow).live.runtime.vhosts = w.live.runtime.vhosts := by rw [hcore.live]
  have hw1 := hw.core hcore.configPath hvhosts
  have hr1 : ReadStill v (resetBackoff w r.cfgNow r.tlsNow) r :=
    ⟨by rw [hcore.configPath, hr.config], by rw [hcore.tlsFiles, hr.tls], by rw [hcore.configPath, hr.links]⟩
  have htrees : TreesLast v w → TreesLast v (resetBackoff w r.cfgNow r.tlsNow) :=
    fun ht => ht.core hvhosts hcore.treeLast
  have hlast := fun hl : LastStill v w => hl.reset r.cfgNow r.tlsNow
  have hfails : ∀ s, (resetBackoff w r.cfgNow r.tlsNow).failedAt = some s → s = (r.cfgNow, r.tlsNow) :=
    fun _ => resetBackoff_failure
  unfold applyInputs
  dsimp only
  generalize resetBackoff w r.cfgNow r.tlsNow = w1 at *
  split
  · refine (takeArm_still hv hw1 hr1).bind fun a j ha => ?_
    -- the listeners and the retry come after the arm and leave its core
    refine (((reconcile_core a j).and (reconcile_failure a j)).mono (fun _ _ hf => hf.1.elim) fun _ _ hq => hq).bind
      fun b k hb => ((settle_core r.cfgNow b k).and (settle_failure r.cfgNow b k)).mono (fun _ _ hf => hf.1.elim)
        fun d l hd => ?_
    obtain ⟨⟨hab, htls⟩, hnone⟩ := hb
    obtain ⟨⟨hbd, htls'⟩, hpending, hfailed, hversion⟩ := hd
    have had := hab.trans hbd
    have hv' : d.watcher.live.runtime.vhosts = a.watcher.live.runtime.vhosts := by rw [had.live]
    refine ⟨ha.legible.core had.configPath hv', ?_, fun s hs => ?_,
      fun ht => (ha.trees (htrees ht)).core hv' had.treeLast, fun hl hf => ?_⟩
    · rw [htls', htls, had.tlsFiles, ha.tlsNow]
    · rw [hversion s hs, htls, had.tlsFiles, ha.tlsNow]
    · obtain ⟨hafail, hp⟩ := hnone (hfailed hf)
      exact ⟨(ha.applied (hlast hl) hafail).core had, hpending.trans hp⟩
  · rename_i hnot
    rw [Obs.holds_pure]
    refine ⟨hw1, hr1.tls, fun s hs => by rw [hfails s hs, hr1.tls], htrees, fun hl hnone => ?_⟩
    rw [hdue (hreset.retryAt hnone), Bool.true_and, Bool.not_eq_true, Bool.or_eq_false_iff, Bool.or_eq_false_iff] at hnot
    obtain ⟨⟨hcfg, htls⟩, hpending⟩ := hnot
    obtain ⟨hconfig, hlinks⟩ := (hlast hl).config_applied hr1 hcfg
    exact ⟨⟨hconfig, (hlast hl).tls_applied hr1 htls, hlinks⟩, by simpa using hpending⟩

end BareServer
