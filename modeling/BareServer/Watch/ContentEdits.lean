/-
Edits of document trees, and moves of document roots, against the tree signatures that are recorded as
applied: which tree each live cache was built from, and whether the content scan still looks at it.
-/
import BareServer.Watch.ConfigEdits

namespace BareServer

open BareServer.Lib

variable {H : Nat → World} {τ : Nat → Nat} {h : Nat → World} {c : Crates} {path : Str}

/-! ## Trees -/

/-- The texts of the document roots tell them apart. -/
def Told (sites : Sites) : Prop := ∀ p q, Served sites p → Served sites q → display p = display q → p = q

/-- Signatures tell the trees of a root apart. -/
def TreesTold (H : Nat → World) : Prop :=
  ∀ t t' root, treeSignature ((H t).node root) = treeSignature ((H t').node root) → (H t).node root = (H t').node root

/-- From the time of a moment on, every site the content scan looks at has an applied signature under its key,
and while the tree carries that signature the live cache is a build of the tree. -/
def ContentKept (H : Nat → World) (τ : Nat → Nat) (c : Crates) (m : Nat) (w : Watcher) : Prop :=
  ∀ order, ∀ t ∈ scanTargets (iter w.live.runtime.vhosts.sites order),
    ∃ sig, w.treeApplied.lookup (targetKey t) = some sig ∧
      ∀ time, τ m ≤ time → treeSignature ((H time).node t.2.1) = sig → BuiltFrom c t.1 ((H time).node t.2.1)

/-- Once the tree of moment `s` is back, it is the tree of moment `b`. -/
def Settled (H : Nat → World) (τ : Nat → Nat) (root : Path) (s b : Nat) : Prop :=
  ∀ time, τ b ≤ time → (H time).node root = (H (τ s)).node root → (H time).node root = (H (τ b)).node root

/-- A tree that a root has at a moment of `[a, e)`, and that is replaced before `e`, does not come back. -/
def Settles (H : Nat → World) (τ : Nat → Nat) (a e : Nat) (root : Path) : Prop :=
  ∀ s b, a ≤ s → s ≤ b → b < e → Settled H τ root s b

/-- What is known of each target: its applied signature is the tree's of a moment `s`, its cache a build of the
tree of a moment `b`, and the two moments are related. -/
structure Tracked (h : Nat → World) (c : Crates) (G : Path → Nat → Nat → Prop) (w : Watcher) : Prop where
  keyed : Keyed w.live.runtime.vhosts.sites
  told : Told w.live.runtime.vhosts.sites
  entry : ∀ t, Target w.live.runtime.vhosts.sites t → ∃ s b,
    w.treeApplied.lookup (targetKey t) = some (treeSignature ((h s).node t.2.1)) ∧
    BuiltFrom c t.1 ((h b).node t.2.1) ∧ G t.2.1 s b

theorem Tracked.mono {G G' : Path → Nat → Nat → Prop} {w : Watcher} (hw : Tracked h c G w)
    (hG : ∀ root, Served w.live.runtime.vhosts.sites root → ∀ s b, G root s b → G' root s b) : Tracked h c G' w := by
  refine ⟨hw.keyed, hw.told, fun t ht => ?_⟩
  obtain ⟨s, b, hsig, hbuilt, hg⟩ := hw.entry t ht
  exact ⟨s, b, hsig, hbuilt, hG _ ht.served s b hg⟩

theorem Tracked.core {G : Path → Nat → Nat → Prop} {w w' : Watcher} (hw : Tracked h c G w)
    (hl : w'.live.runtime.vhosts = w.live.runtime.vhosts) (ha : w'.treeApplied = w.treeApplied) : Tracked h c G w' := by
  refine ⟨by rw [hl]; exact hw.keyed, by rw [hl]; exact hw.told, ?_⟩
  rw [hl, ha]
  exact hw.entry

/-- Applied signatures whose trees settled keep the content. -/
theorem Tracked.contentKept {w : Watcher} {m : Nat} (hτ : Monotone τ) (ht : TreesTold H)
    (hw : Tracked (seen H τ) c (fun root s b => b ≤ m ∧ Settled H τ root s b) w) : ContentKept H τ c m w := by
  intro order t hmem
  obtain ⟨s, b, hsig, hbuilt, hbm, hset⟩ := hw.entry t (mem_scanTargets hw.keyed.shared hmem)
  refine ⟨_, hsig, fun time htime hnow => ?_⟩
  rw [hset time ((hτ hbm).trans htime) (ht _ _ _ hnow)]
  exact hbuilt

/-! ## Builds -/

/-- While a runtime is sampled and built no configured root moves, and the texts of the resolved roots tell
them apart. -/
structure SteadyBuild (h : Nat → World) (a e : Nat) (cfg : Config) : Prop where
  links : ∀ r ∈ cfg.roots, ∀ k, a ≤ k → k ≤ e → (h k).canonicalize r = (h a).canonicalize r
  told : ∀ r ∈ cfg.roots, ∀ r' ∈ cfg.roots, display ((h a).resolve r) = display ((h a).resolve r') →
    (h a).resolve r = (h a).resolve r'

theorem SteadyBuild.resolve {a e : Nat} {cfg : Config} (hs : SteadyBuild h a e cfg) {r : Str} (hr : r ∈ cfg.roots) {k : Nat}
    (hak : a ≤ k) (hke : k ≤ e) : (h k).resolve r = (h a).resolve r := by
  rw [World.resolve, hs.links r hr k hak hke]
  rfl

/-- The sample of a steady build holds the tree of every root. -/
theorem SteadyBuild.sampled {a e j : Nat} {cfg : Config} (hs : SteadyBuild h a e cfg) (hje : j ≤ e) {trees : Map Str UInt64}
    (hh : Hashed h a j (cfg.roots.map fun r l => (h l).resolve r) trees) {r : Str} (hr : r ∈ cfg.roots) :
    ∃ s, a ≤ s ∧ s < j ∧
      trees.lookup (display ((h a).resolve r)) = some (treeSignature ((h s).node ((h a).resolve r))) := by
  obtain ⟨l, hal, hlj, hsome⟩ := hh.all _ (List.mem_map_of_mem hr)
  rw [hs.resolve hr hal (hlj.trans hje)] at hsome
  obtain ⟨v, hv⟩ := Option.isSome_iff_exists.1 hsome
  obtain ⟨f, hf, m, s, ham, hms, hsj, hkey, rfl⟩ := hh.read _ v hv
  obtain ⟨r', hr', rfl⟩ := List.mem_map.1 hf
  simp only at hkey hv
  rw [hs.resolve hr' ham (by omega)] at hkey hv
  rw [hs.told r' hr' r hr hkey] at hv
  exact ⟨s, by omega, hsj, hv⟩

/-- What a steady build gives: a table with keys, whose roots are those of the config, each sampled before its
cache was built. -/
structure SampledTable (h : Nat → World) (c : Crates) (a e : Nat) (roots : List Str) (trees : Map Str UInt64) (sites : Sites) :
    Prop where
  keyed : Keyed sites
  told : Told sites
  roots : ∀ root, Served sites root → ∃ r ∈ roots, root = (h a).resolve r
  entry : ∀ t, Target sites t → ∃ s b, a ≤ s ∧ s ≤ b ∧ b < e ∧
    trees.lookup (display t.2.1) = some (treeSignature ((h s).node t.2.1)) ∧ BuiltFrom c t.1 ((h b).node t.2.1)

theorem SteadyBuild.sampledTable {a j k seq seq' : Nat} {cfg : Config} {s : Sampled} {rt : Runtime}
    (hs : (sample path cfg : Watch Sampled).run h a = ⟨s, j, []⟩)
    (hb : (buildRuntime c cfg seq : Watch _).run h j = ⟨(.ok rt, seq'), k, []⟩) (haj : a ≤ j) (hjk : j ≤ k)
    (hsteady : SteadyBuild h a k cfg) : SampledTable h c a k cfg.roots s.trees rt.vhosts.sites := by
  have hsample := ((sample_silent path cfg a).of_run hs).2.2
  have htable := (buildRuntime_read seq j).of_run hb rt rfl
  -- where every root of the table comes from
  have hread : ∀ host site root, rt.vhosts.sites.lookup host = some site → site.root = some root →
      ∃ r ∈ cfg.roots, root = (h a).resolve r ∧ ∃ b, j ≤ b ∧ b < k ∧ BuiltFrom c site ((h b).node root) := by
    intro host site root hl hroot
    obtain ⟨block, hblock, -, hsite⟩ := htable.site host site hl
    obtain ⟨r, hr, l, b, hjl, hlb, hbk, hcan, hbuilt⟩ := hsite root hroot
    have hmem : r ∈ cfg.roots := List.mem_filterMap.2 ⟨block, hblock, hr⟩
    have hres : (h l).resolve r = root := by simp [World.resolve, hcan, Except.toOption]
    rw [hsteady.resolve hmem (by omega) (by omega)] at hres
    exact ⟨r, hmem, hres.symm, b, by omega, hbk, hbuilt⟩
  refine ⟨htable.keyed, ?_, ?_, ?_⟩
  · rintro p q ⟨host, site, hl, hroot⟩ ⟨host', site', hl', hroot'⟩ hd
    obtain ⟨r, hr, rfl, -⟩ := hread host site p hl hroot
    obtain ⟨r', hr', rfl, -⟩ := hread host' site' q hl' hroot'
    exact hsteady.told r hr r' hr' hd
  · rintro root ⟨host, site, hl, hroot⟩
    obtain ⟨r, hr, heq, -⟩ := hread host site root hl hroot
    exact ⟨r, hr, heq⟩
  · intro t ht
    obtain ⟨r, hr, heq, b, hjb, hbk, hbuilt⟩ := hread _ _ _ ht.lookup ht.root
    obtain ⟨l, hal, hlj, hsig⟩ := hsteady.sampled hjk hsample hr
    rw [← heq] at hsig
    exact ⟨l, b, hal, by omega, hbk, hsig, hbuilt⟩

/-- A new runtime whose applied signatures are the sampled ones. -/
theorem SampledTable.tracked {a e : Nat} {roots : List Str} {trees : Map Str UInt64} {w : Watcher}
    (hst : SampledTable h c a e roots trees w.live.runtime.vhosts.sites)
    (happlied : ∀ t, Target w.live.runtime.vhosts.sites t → ∀ sig, trees.lookup (display t.2.1) = some sig →
      w.treeApplied.lookup (targetKey t) = some sig) :
    Tracked h c (fun _ s b => a ≤ s ∧ s ≤ b ∧ b < e) w := by
  refine ⟨hst.keyed, hst.told, fun t ht => ?_⟩
  obtain ⟨s, b, has, hsb, hbe, hsig, hbuilt⟩ := hst.entry t ht
  exact ⟨s, b, happlied t ht _ hsig, hbuilt, has, hsb, hbe⟩

/-! ## Ticks -/

/-- The two moments of a target during a tick that began at `a`: their tree has settled, or both belong to
this tick. -/
def Phase (H : Nat → World) (τ : Nat → Nat) (a m : Nat) (root : Path) (s b : Nat) : Prop :=
  b ≤ m ∧ (Settled H τ root s b ∨ a ≤ s ∧ s ≤ b ∧ b < m)

/-- A tick in progress: it began at `a`, and the trees of its roots settle until `e`. -/
structure Phased (H : Nat → World) (τ : Nat → Nat) (c : Crates) (a e m : Nat) (w : Watcher) : Prop where
  begun : a ≤ m
  tracked : Tracked (seen H τ) c (Phase H τ a m) w
  settles : ∀ root, Served w.live.runtime.vhosts.sites root → Settles H τ a e root

theorem Phase.later {a m m' : Nat} {root : Path} {s b : Nat} (hp : Phase H τ a m root s b) (hm : m ≤ m') :
    Phase H τ a m' root s b :=
  ⟨hp.1.trans hm, hp.2.imp_right fun ⟨has, hsb, hbm⟩ => ⟨has, hsb, by omega⟩⟩

theorem Phased.later {a e m m' : Nat} {w w' : Watcher} (hw : Phased H τ c a e m w) (hm : m ≤ m')
    (hl : w'.live.runtime.vhosts = w.live.runtime.vhosts) (ha : w'.treeApplied = w.treeApplied) :
    Phased H τ c a e m' w' := by
  refine ⟨hw.begun.trans hm, (hw.tracked.mono fun _ _ s b hp => hp.later hm).core hl ha, ?_⟩
  rw [hl]
  exact hw.settles

/-- By the end of its tick every target's tree has settled. -/
theorem Phased.tracked_of_le {a e m : Nat} {w : Watcher} (hw : Phased H τ c a e m w) (hm : m ≤ e) :
    Tracked (seen H τ) c (fun root s b => b ≤ m ∧ Settled H τ root s b) w := by
  refine hw.tracked.mono fun root hserved s b hp => ⟨hp.1, ?_⟩
  rcases hp.2 with hset | ⟨has, hsb, hbm⟩
  · exact hset
  · exact hw.settles root hserved s b has hsb (by omega)

theorem scanned_eq {sites : Sites} {targets : List (Site × Path × Str)} {sigs : Map Str UInt64} {i j : Nat}
    (htold : Told sites) (hl : ScanList sites targets) (hh : Hashed h i j (targets.map fun t _ => t.2.1) sigs)
    {t : Site × Path × Str} (ht : t ∈ targets) :
    ∃ s, i ≤ s ∧ s < j ∧ scanned sigs t = treeSignature ((h s).node t.2.1) := by
  obtain ⟨u, hu, s, his, hsj, hkey, hnow⟩ := scanned_read hh ht
  rw [htold _ _ (hl.target u hu).served (hl.target t ht).served hkey] at hnow
  exact ⟨s, his, hsj, hnow⟩

/-- A rebuilt target: its new entry belongs to this tick, and the other targets keep theirs. -/
theorem Phased.rebuilt {a e k : Nat} {w : Watcher} (hw : Phased H τ c a e k w) {t : Site × Path × Str}
    (ht : Target w.live.runtime.vhosts.sites t) {cache : SiteCache} {now : UInt64} {env : BuildEnv}
    {s total total' seq seq' : Nat} (has : a ≤ s) (hsk : s ≤ k) (hnow : now = treeSignature ((seen H τ s).node t.2.1))
    (henv : env.compressors = c.compressors)
    (hbuild : buildCache env t.1.policy seq ((seen H τ k).node t.2.1) total = (some (cache, total'), seq')) (next : Nat) :
    Phased H τ c a e (k + 1) (w.rebuilt t.1.id cache (targetKey t) now next) := by
  have hk := hw.tracked.keyed
  have hre := recached_setCache w.live.runtime.vhosts.sites t.1.id cache
  refine ⟨hw.begun.trans (Nat.le_succ k), ⟨hk.setCache _ _,
    fun p q hp hq => hw.tracked.told p q (hre.served hp) (hre.served hq), fun t' ht' => ?_⟩,
    fun root hs => hw.settles root (hre.served hs)⟩
  show ∃ s b, (w.treeApplied.insert (targetKey t) now).lookup (targetKey t') = _ ∧ _
  rcases ht.setCache_cases hk.shared ht' with rfl | ⟨hold, hhost⟩
  · refine ⟨s, k, ?_, ⟨env, seq, total, total', seq', henv, hbuild⟩, Nat.le_succ k, .inr ⟨has, hsk, Nat.lt_succ_self k⟩⟩
    show (w.treeApplied.insert (targetKey t) now).lookup (targetKey t) = _
    rw [AList.lookup_insert, hnow]
  · obtain ⟨s', b', hsig, hbuilt, hp⟩ := hw.tracked.entry t' hold
    refine ⟨s', b', ?_, hbuilt, hp.later (Nat.le_succ k)⟩
    rw [AList.lookup_insert_ne]
    · exact hsig
    · exact fun hkey => hhost (hk.host_eq hold ht hkey)

theorem scan_phased {a e i : Nat} {w : Watcher} (hw : Phased H τ c a e i w) :
    Obs.Holds (seen H τ) (fun m p => Phased H τ c a e m p.watcher) (scan c w) i fun w' m => Phased H τ c a e m w' := by
  refine scan_holds (P := fun _ w' m => Phased H τ c a e m w' ∧
    Recached w.live.runtime.vhosts.sites w'.live.runtime.vhosts.sites)
    (fun j hj => ⟨hw.later hj rfl rfl, .refl _⟩) ?_ fun _ _ _ hP => hP.1
  intro order sigs targets j htargets hh done t rest hdone w' k hjk hP
  obtain ⟨hw', hre⟩ := hP
  have hk := hw.tracked.keyed
  have hlist : ScanList w.live.runtime.vhosts.sites targets := by
    rw [htargets]
    exact orderTargets_scanList hk.shared order
  have hmem : t ∈ targets := by
    rw [hdone]
    simp
  obtain ⟨x, hx, hbare⟩ := (hlist.target t hmem).recached hre hk.shared
  obtain ⟨s, his, hsj, hnow⟩ := scanned_eq hw.tracked.told hlist hh hmem
  refine scanSite_holds (fun seq failed m hm => ⟨hw'.later hm rfl rfl, hre⟩) fun cache total seq _ hb => ?_
  -- the record the scan began with differs from the live one in its cache only
  rw [← Site.bare_policy hbare] at hb
  rw [← Site.bare_id hbare]
  have hai := hw.begun
  have hnew := hw'.rebuilt hx (by omega) (by omega) hnow rfl hb seq
  exact ⟨hnew, hnew.later (Nat.le_succ _) rfl rfl, hre.trans (recached_setCache _ _ _)⟩

/-- A boot builds steadily, and what the trees of its roots are while it does settles. -/
def SteadyBoot (H : Nat → World) (τ : Nat → Nat) (c : Crates) (path : Str) : Prop :=
  ∀ cfg s j rt k l l', (seen H τ 0).load path = .ok cfg →
    (sample path cfg.cfg : Watch Sampled).run (seen H τ) 2 = ⟨s, j, l⟩ →
    (buildRuntime c cfg.cfg 0 : Watch _).run (seen H τ) j = ⟨rt, k, l'⟩ →
    SteadyBuild (seen H τ) 2 k cfg.cfg ∧ ∀ r ∈ cfg.cfg.roots, Settles H τ 2 k ((seen H τ 2).resolve r)

/-- A tick builds steadily when it reloads, and what the trees of the document roots are during it settles. -/
structure SteadyTick (H : Nat → World) (τ : Nat → Nat) (c : Crates) (w : Watcher) (i : Nat) : Prop where
  served : ∀ root, Served w.live.runtime.vhosts.sites root → Settles H τ i ((tick c w).run (seen H τ) i).next root
  reload : ∀ r j l cfg, (readInputs w).run (seen H τ) i = ⟨r, j, l⟩ → takesReload w r = true →
    (seen H τ j).load w.configPath = .ok cfg →
    (∀ s k rt m l l', (sample w.configPath cfg.cfg : Watch Sampled).run (seen H τ) (j + 1) = ⟨s, k, l⟩ →
      (buildRuntime c cfg.cfg w.buildSeq : Watch _).run (seen H τ) k = ⟨rt, m, l'⟩ →
      SteadyBuild (seen H τ) (j + 1) m cfg.cfg) ∧
    ∀ q ∈ cfg.cfg.roots, Settles H τ i ((tick c w).run (seen H τ) i).next ((seen H τ (j + 1)).resolve q)

theorem tick_phased {w : Watcher} {i : Nat}
    (hw : Tracked (seen H τ) c (fun root s b => b ≤ i ∧ Settled H τ root s b) w) (hs : SteadyTick H τ c w i) :
    Obs.Holds (seen H τ) (fun m p => Phased H τ c i ((tick c w).run (seen H τ) i).next m p.watcher) (tick c w) i
      fun w' m => Phased H τ c i ((tick c w).run (seen H τ) i).next m w' := by
  have hserved := hs.served
  have hreload := hs.reload
  generalize ((tick c w).run (seen H τ) i).next = e at *
  have hstart : Phased H τ c i e i w := ⟨le_rfl, hw.mono fun _ _ s b hp => ⟨hp.1, .inl hp.2⟩, hserved⟩
  obtain ⟨r, j, hread, -, hij⟩ := readInputs_run (seen H τ) w i
  refine tick_holds (P := fun w' _ m => Phased H τ c i e m w') (Q := fun w' m => Phased H τ c i e m w') hread ?_
    (fun w1 t k hP => ⟨hP.later le_rfl rfl rfl, hP.later (Nat.le_succ k) rfl rfl⟩) fun w1 k hQ =>
      (scan_phased hQ).post fun w2 l hP => ⟨hP, hP.later (Nat.le_succ l) rfl rfl⟩
  · refine applyInputs_holds (P := fun w' _ m => Phased H τ c i e m w')
      (fun w1 w2 t j k hcore hjk hP => hP.later hjk (by rw [hcore.live]) hcore.treeApplied) ?_ ?_
      fun _ _ => hstart.later hij rfl rfl
    · intro htakes w0 hcore
      have hw0 : Phased H τ c i e j w0 := hstart.later hij (by rw [hcore.live]) hcore.treeApplied
      refine reload_holds (fun seq err k hk => hw0.later hk rfl rfl) ?_
      intro cfg s rt seq order applied last k m l hload hsample hbuild hseed hjk hkm hml
      rw [hcore.configPath] at hload hsample
      rw [hcore.buildSeq] at hbuild
      obtain ⟨hsteady, hsettles⟩ := hreload r j [] cfg hread htakes hload
      have htable := (hsteady s k _ m [] [] hsample hbuild).sampledTable hsample hbuild (by omega) hkm
      obtain ⟨hnul, hroots⟩ := htable.keyed.rooted order
      have hnew : Phased H τ c i e l (w0.reloaded cfg s rt applied last r.cfgNow seq) := by
        refine ⟨by omega, (SampledTable.tracked htable fun t ht sig hsig => ?_).mono fun _ _ x b hx => ?_, ?_⟩
        · obtain ⟨hroot, hmem⟩ := hroots t ht
          exact ((seedTrees_lookup s.trees t.2.2 hroot _ _ _ hnul).of_run hseed).1 sig hsig (.inl hmem)
        · exact ⟨by omega, .inr ⟨by omega, hx.2.1, by omega⟩⟩
        · intro root hroot
          obtain ⟨q, hq, rfl⟩ := htable.roots root hroot
          exact hsettles q hq
      exact ⟨hnew, fun t n hn => hnew.later hn rfl rfl⟩
    · intro _ w0 hcore
      have hw0 : Phased H τ c i e j w0 := hstart.later hij (by rw [hcore.live]) hcore.treeApplied
      refine reloadTls_holds (fun err k hk => hw0.later hk rfl rfl) fun cfg tls k _ _ hk => ?_
      exact ⟨hw0.later hk rfl rfl, hw0.later (hk.trans (Nat.le_succ k)) rfl rfl⟩

/-- One tick: its publications keep the content, and afterwards every tree has settled. -/
theorem tick_contentKept (hτ : Monotone τ) (ht : TreesTold H) {w : Watcher} {i : Nat}
    (hw : Tracked (seen H τ) c (fun root s b => b ≤ i ∧ Settled H τ root s b) w) (hs : SteadyTick H τ c w i) :
    Obs.Holds (seen H τ) (fun m p => ContentKept H τ c m p.watcher) (tick c w) i
      fun w' m => Tracked (seen H τ) c (fun root s b => b ≤ m ∧ Settled H τ root s b) w' := by
  have hrun := tick_phased hw hs
  refine ⟨fun e he => ?_, hrun.2.tracked_of_le le_rfl⟩
  have hend := (Obs.trace_within (tick c w) i e he).2
  exact ((hrun.1 e he).tracked_of_le hend.le).contentKept hτ ht

theorem boot_contentKept (hτ : Monotone τ) (ht : TreesTold H) (hs : SteadyBoot H τ c path) :
    Obs.Holds (seen H τ) (fun m p => ContentKept H τ c m p.watcher) (boot c path) 0
      fun x m => ∀ w, x = .ok w → Tracked (seen H τ) c (fun root s b => b ≤ m ∧ Settled H τ root s b) w := by
  refine boot_holds fun cfg s rt seq https http loops j k l hload hsample hbuild hj hjk hkl _ => watchInit_holds ?_
  intro w order m hm _ _ hlive happlied _ _
  obtain ⟨hsteady, hsettles⟩ := hs cfg s j _ k [] [] hload hsample hbuild
  have htable := hsteady.sampledTable hsample hbuild hj hjk
  obtain ⟨hnul, hroots⟩ := htable.keyed.rooted order
  have hlive' : w.live.runtime.vhosts.sites = rt.vhosts.sites := by rw [hlive]
  rw [← hlive'] at htable
  have htracked : Tracked (seen H τ) c (fun root s b => b ≤ m ∧ Settled H τ root s b) w := by
    refine (htable.tracked fun t htarget sig hsig => ?_).mono fun root hroot x b hx => ?_
    · rw [hlive'] at htarget
      obtain ⟨hroot, hmem⟩ := hroots t htarget
      rw [happlied]
      exact seedBoot_lookup t.2.2 hroot hsig _ ∅ hnul (.inl hmem)
    · obtain ⟨q, hq, rfl⟩ := htable.roots root hroot
      exact ⟨by omega, hsettles q hq x b hx.1 hx.2.1 hx.2.2⟩
  exact ⟨htracked.contentKept hτ ht, htracked.mono fun _ _ x b hx => ⟨hx.1.trans (Nat.le_succ m), hx.2⟩⟩

/-- Whatever is edited and moved, no content edit is lost while boot and every tick build steadily: in every
published state each site with a root has its applied signature where the content scan looks, and a live
cache whose tree carries that signature is a build of that tree. -/
theorem process_contentKept (c : Crates) (path : Str) (H : Nat → World) (τ : Nat → Nat) (hτ : Monotone τ)
    (ht : TreesTold H) (hboot : SteadyBoot H τ c path) (n : Nat)
    (hticks : EachTick c path (seen H τ) (SteadyTick H τ c) n) :
    ∀ e ∈ ((process c path n).run (seen H τ) 0).trace, ContentKept H τ c e.1 e.2.watcher :=
  (process_holds (boot_contentKept hτ ht hboot) (fun _ _ hw hs => tick_contentKept hτ ht hw hs) hticks).1

/-- A config with one site, its root behind a path that can move. -/
def rootConf : Str := str "listen = [::]:443\nsite a.example \x7b\n cert = /c\n key = /k\n root = /www\n\x7d\n"

/-- The root moves to a second, empty directory at a time `moved`; a file is put there at time 22. -/
def movedAt (moved k : Nat) : World :=
  { World.small rootConf 1 1 with
    canonicalize := fun _ => .ok (if k < moved then str "/first" else str "/second")
    noNul := fun _ _ hp => by cases hp; split <;> decide
    node := fun p =>
      if p = str "/second" ∧ 22 ≤ k then .dir (some [(str "new", .file ⟨1, some 1⟩ (some [65]))]) else .dir (some []) }

theorem movedAt_node (moved k : Nat) (root : Path) : (movedAt moved k).node root =
    if root = str "/second" ∧ 22 ≤ k then .dir (some [(str "new", .file ⟨1, some 1⟩ (some [65]))]) else .dir (some []) :=
  rfl

theorem movedAt_told (moved : Nat) : TreesTold (movedAt moved) := by
  have hne : treeSignature (.dir (some [(str "new", .file ⟨1, some 1⟩ (some [65]))])) ≠ treeSignature (.dir (some [])) := by
    decide +kernel
  intro t t' root heq
  simp only [movedAt_node] at heq ⊢
  by_cases hroot : root = str "/second" <;> by_cases ht : 22 ≤ t <;> by_cases ht' : 22 ≤ t' <;>
    simp only [hroot, ht, ht', and_self, and_true, and_false, if_true, if_false] at heq ⊢
  · exact absurd heq hne
  · exact absurd heq.symm hne

/-- The one edit of the second directory is not taken back. -/
theorem movedAt_settles (moved a e : Nat) (root : Path) : Settles (movedAt moved) id a e root := by
  intro s b _ hsb _ time hbt heq
  simp only [movedAt_node, id_eq] at heq hbt ⊢
  by_cases hb : 22 ≤ b
  · simp [hb, hb.trans hbt]
  · have hs : ¬ 22 ≤ s := by omega
    simp only [hs, hb, and_false, if_false] at heq ⊢
    exact heq

/-- A root that stays, with a file that arrives after boot. -/
theorem process_contentKept_new_file : ((process anyPem confPath 3).run (seen (movedAt 0) id) 0).trace.length = 8 ∧
    ∀ e ∈ ((process anyPem confPath 3).run (seen (movedAt 0) id) 0).trace,
      ContentKept (movedAt 0) id anyPem e.1 e.2.watcher := by
  have hstill : ∀ k r, (movedAt 0 k).resolve r = str "/second" := fun _ _ => rfl
  have hsteady : ∀ a e cfg, SteadyBuild (seen (movedAt 0) id) a e cfg := fun a e cfg =>
    ⟨fun _ _ _ _ _ => rfl, fun r _ r' _ _ => (hstill _ r).trans (hstill _ r').symm⟩
  refine ⟨by decide +kernel, ?_⟩
  exact process_contentKept anyPem confPath (movedAt 0) id monotone_id (movedAt_told 0)
    (fun cfg _ _ _ k _ _ _ _ _ => ⟨hsteady 2 k cfg.cfg, fun _ _ => movedAt_settles _ _ _ _⟩) 3
    (eachTick_of_forall (fun w i => ⟨fun _ _ => movedAt_settles _ _ _ _, fun _ _ _ _ _ _ _ =>
      ⟨fun _ _ _ _ _ _ _ _ => hsteady _ _ _, fun _ _ => movedAt_settles _ _ _ _⟩⟩) 3)

/-- The root moves between boot's look at its tree and boot's look at its link: the site has no applied signature,
so the scan takes every tree for the applied one and the file that arrives is never served. -/
theorem root_moved_during_sample : TreesTold (movedAt 7) ∧
    ¬ ∀ e ∈ ((process anyPem confPath 2).run (seen (movedAt 7) id) 0).trace, ContentKept (movedAt 7) id anyPem e.1 e.2.watcher := by
  refine ⟨movedAt_told 7, fun hall => ?_⟩
  have hbad : (((process anyPem confPath 2).run (seen (movedAt 7) id) 0).trace.any fun e =>
      (scanTargets (iter e.2.watcher.live.runtime.vhosts.sites World.empty.order)).any fun t =>
        (e.2.watcher.treeApplied.lookup (targetKey t)).isNone) = true := by
    decide +kernel
  obtain ⟨e, he, hb⟩ := List.any_eq_true.1 hbad
  obtain ⟨t, ht, hnone⟩ := List.any_eq_true.1 hb
  obtain ⟨sig, hsig, -⟩ := hall e he World.empty.order t ht
  rw [hsig] at hnone
  cases hnone

end BareServer
