/-
Debouncing: whether what a tick installs carries the signature that the tick before read.
-/
import BareServer.Watch.ContentEdits

namespace BareServer

open BareServer.Lib

variable {h : Nat → World} {c : Crates} {path : Str}

/-! ## Installs -/

/-- The config was loaded at a moment from `i` up to `e` at which its file had this signature. -/
def LoadedAs (h : Nat → World) (path : Str) (i e : Nat) (cfg : Loaded) (sig : UInt64) : Prop :=
  ∃ k, i ≤ k ∧ k < e ∧ (h k).load path = .ok cfg ∧ fileSignature ((h k).info path) = sig

/-- An input goes live, in a tick from `i` to `e`, with the signature that the tick before had read of it. For
certificates that means the config which names their files, and the files it names. -/
def Debounced (h : Nat → World) (w : Watcher) (i e : Nat) : Install → Prop
  | .config cfg sig => sig = w.cfgLast ∧ LoadedAs h w.configPath i e cfg w.cfgLast
  | .certs cfg sig => sig = w.tlsLast ∧ tlsPaths cfg.cfg = w.tlsFiles ∧ LoadedAs h w.configPath i e cfg w.cfgLast
  | .tree key sig => w.treeLast.lookup key = some sig

/-- The inputs of a full reload rest: from `i` up to `e` they are what the tick before read, as the watcher
recorded it. -/
structure QuietReload (h : Nat → World) (w : Watcher) (cfg : Config) (i e : Nat) : Prop where
  config : ∀ k, i ≤ k → k < e → fileSignature ((h k).info w.configPath) = w.cfgLast
  pemFiles : tlsPaths cfg = w.tlsFiles
  pems : ∀ k, i ≤ k → k < e → ∀ p ∈ tlsPaths cfg, (h k).info p = (h i).info p
  pemsLast : tlsSignature ((tlsPaths cfg).map (h i).info) = w.tlsLast
  links : ∀ q ∈ cfg.roots, ∀ k, i ≤ k → k < e → (h k).canonicalize q = (h i).canonicalize q
  told : ∀ q ∈ cfg.roots, ∀ q' ∈ cfg.roots, display ((h i).resolve q) = display ((h i).resolve q') →
    (h i).resolve q = (h i).resolve q'
  trees : ∀ s ∈ cfg.sites, ∀ host ∈ s.hosts, (∀ host' ∈ s.hosts, ¬ host' < host) → ∀ q, s.root = some q →
    ∀ k, i ≤ k → k < e →
      w.treeLast.lookup (siteKey host (display ((h i).resolve q))) = some (treeSignature ((h k).node ((h i).resolve q)))

/-- The config that a renewal loads at `j` is the one the tick before read, and names the files that are watched. -/
structure QuietRenewal (h : Nat → World) (w : Watcher) (cfg : Config) (j : Nat) : Prop where
  config : fileSignature ((h j).info w.configPath) = w.cfgLast
  pemFiles : tlsPaths cfg = w.tlsFiles

theorem QuietReload.resolve {w : Watcher} {cfg : Config} {i e k : Nat} (hq : QuietReload h w cfg i e) {q : Str}
    (hmem : q ∈ cfg.roots) (hik : i ≤ k) (hke : k < e) : (h k).resolve q = (h i).resolve q := by
  rw [World.resolve, hq.links q hmem k hik hke]
  rfl

theorem QuietReload.steady {w : Watcher} {cfg : Config} {i e a b : Nat} (hq : QuietReload h w cfg i e) (hia : i ≤ a)
    (hab : a ≤ b) (hbe : b < e) : SteadyBuild h a b cfg := by
  refine ⟨fun q hmem k hak hkb => ?_, fun q hmem q' hmem' hd => ?_⟩
  · rw [hq.links q hmem k (by omega) (by omega), hq.links q hmem a hia (by omega)]
  · rw [hq.resolve hmem hia (by omega), hq.resolve hmem' hia (by omega)] at hd ⊢
    exact hq.told q hmem q' hmem' hd

/-- Every combined signature of the PEM files is the one the tick before read. -/
theorem QuietReload.tls {w : Watcher} {cfg : Config} {i e j : Nat} (hq : QuietReload h w cfg i e)
    {infos : List (Option FileMeta)} (hje : j ≤ e)
    (hinfos : List.Forall₂ (fun p info => ∃ k, i ≤ k ∧ k < j ∧ info = (h k).info p) (tlsPaths cfg) infos) :
    tlsSignature infos = w.tlsLast := by
  rw [← hq.pemsLast]
  congr 1
  have hpems := fun k hik hke => hq.pems k hik hke
  clear hq
  revert hpems
  generalize tlsPaths cfg = paths at hinfos
  intro hpems
  induction hinfos with
  | nil => rfl
  | cons hp _ ih =>
    obtain ⟨k, hik, hkj, rfl⟩ := hp
    rw [List.map_cons, hpems k hik (by omega) _ List.mem_cons_self,
      ih fun k hik hke p hmem => hpems k hik hke p (List.mem_cons_of_mem _ hmem)]

/-- A target of the new table is a site of the config under the least of its hosts, its root where the config's
root resolves to. -/
theorem QuietReload.target {w : Watcher} {cfg : Config} {i e a b : Nat} (hq : QuietReload h w cfg i e) {sites : Sites}
    (ht : TableOf (SiteRead h c a · · b) cfg.sites sites) (hia : i ≤ a) (hbe : b ≤ e) {t : Site × Path × Str}
    (htarget : Target sites t) : (∃ q ∈ cfg.roots, t.2.1 = (h i).resolve q) ∧
      ∀ k, i ≤ k → k < e → w.treeLast.lookup (targetKey t) = some (treeSignature ((h k).node t.2.1)) := by
  obtain ⟨s, hs, hhost, hread⟩ := ht.site _ _ htarget.lookup
  obtain ⟨q, hroot, l, b', hal, hlb, hbb, hcan, -⟩ := hread _ htarget.root
  have hmem : q ∈ cfg.roots := List.mem_filterMap.2 ⟨s, hs, hroot⟩
  have hres : t.2.1 = (h i).resolve q := by
    rw [← hq.resolve hmem (show i ≤ l by omega) (by omega)]
    simp [World.resolve, hcan, Except.toOption]
  refine ⟨⟨q, hmem, hres⟩, fun k hik hke => ?_⟩
  rw [targetKey, hres]
  refine hq.trees s hs t.2.2 hhost (fun host' hh' => ?_) q hroot k hik hke
  -- all hosts of the block enter one site
  obtain ⟨x, hx⟩ := ht.hosts s hs
  have hxt : x = t.1 := Option.some.inj ((hx _ hhost).symm.trans htarget.lookup)
  exact htarget.least host' (by rw [hx host' hh', hxt])

/-! ## The content scan -/

/-- Every target of the live table has a last signature. -/
structure Listed (w : Watcher) : Prop where
  keyed : Keyed w.live.runtime.vhosts.sites
  last : ∀ t, Target w.live.runtime.vhosts.sites t → (w.treeLast.lookup (targetKey t)).isSome

theorem Listed.core {w w' : Watcher} (hw : Listed w) (hl : w'.live.runtime.vhosts = w.live.runtime.vhosts)
    (ht : w'.treeLast = w.treeLast) : Listed w' := by
  constructor
  · rw [hl]
    exact hw.keyed
  · rw [hl, ht]
    exact hw.last

/-- A scan in progress over the targets of `w`: only the last signatures of the targets that are done moved. -/
structure Scanning (w : Watcher) (done : List (Site × Path × Str)) (w' : Watcher) : Prop where
  keyed : Keyed w'.live.runtime.vhosts.sites
  recached : Recached w.live.runtime.vhosts.sites w'.live.runtime.vhosts.sites
  last : ∀ t, Target w.live.runtime.vhosts.sites t → (w'.treeLast.lookup (targetKey t)).isSome
  frame : ∀ t, Target w.live.runtime.vhosts.sites t → t.2.2 ∉ done.map (fun u => u.2.2) →
    w'.treeLast.lookup (targetKey t) = w.treeLast.lookup (targetKey t)

theorem Scanning.start {w : Watcher} (hw : Listed w) : Scanning w [] w :=
  ⟨hw.keyed, .refl _, hw.last, fun _ _ _ => rfl⟩

theorem Recached.symm {a b : Sites} (hr : Recached a b) : Recached b a := fun host => (hr host).symm

theorem Scanning.listed {w w' : Watcher} {done : List (Site × Path × Str)} (hs : Scanning w done w') : Listed w' := by
  refine ⟨hs.keyed, fun t ht => ?_⟩
  obtain ⟨x, hx, -⟩ := ht.recached hs.recached.symm hs.keyed.shared
  exact hs.last (x, t.2.1, t.2.2) hx

/-- One target recorded, its cache rebuilt or not. -/
theorem Scanning.next {w w1 w2 : Watcher} {done : List (Site × Path × Str)} {t : Site × Path × Str} {now : UInt64}
    (hw : Listed w) (hs : Scanning w done w1) (ht : Target w.live.runtime.vhosts.sites t)
    (hk : Keyed w2.live.runtime.vhosts.sites) (hr : Recached w1.live.runtime.vhosts.sites w2.live.runtime.vhosts.sites)
    (hl : w2.treeLast = w1.treeLast.insert (targetKey t) now) : Scanning w (done ++ [t]) w2 := by
  refine ⟨hk, hs.recached.trans hr, fun u hu => ?_, fun u hu hnot => ?_⟩
  · rw [hl, Map.lookup_insert']
    split
    · rfl
    · exact hs.last u hu
  · rw [List.map_append, List.mem_append, not_or] at hnot
    rw [hl, AList.lookup_insert_ne, hs.frame u hu hnot.1]
    exact fun hkey => hnot.2 (by simp [hw.keyed.host_eq hu ht hkey])

/-- What a scan installs: trees of its targets, with the signature the scan read, which is the last one. -/
def ScanInstall (h : Nat → World) (w : Watcher) (i m : Nat) (x : Install) : Prop :=
  ∃ t u s, Target w.live.runtime.vhosts.sites t ∧ Target w.live.runtime.vhosts.sites u ∧ i ≤ s ∧ s < m ∧
    display u.2.1 = display t.2.1 ∧ x = .tree (targetKey t) (treeSignature ((h s).node u.2.1)) ∧
    w.treeLast.lookup (targetKey t) = some (treeSignature ((h s).node u.2.1))

theorem scan_installs {w : Watcher} {i : Nat} (hw : Listed w) :
    Obs.Holds h (fun m p => ∀ x ∈ p.installs, ScanInstall h w i m x) (scan c w) i fun w' _ => Listed w' := by
  refine scan_holds (P := fun done w' _ => Scanning w done w') (fun _ _ => .start hw) ?_ fun _ _ _ hP => hP.listed
  intro order sigs targets j htargets hh done t rest hdone w' k hjk hP
  have hlist : ScanList w.live.runtime.vhosts.sites targets := by
    rw [htargets]
    exact orderTargets_scanList hw.keyed.shared order
  have hmem : t ∈ targets := by
    rw [hdone]
    simp
  have ht := hlist.target t hmem
  refine scanSite_holds (fun seq failed m hm => hP.next hw ht hP.keyed (.refl _) rfl) fun cache total seq hlast _ => ?_
  refine ⟨?_, hP.next hw ht (hP.keyed.setCache _ _) (recached_setCache _ _ _) rfl⟩
  -- the target was not done before, so its last signature is still the one the scan began with
  have hnot : t.2.2 ∉ done.map fun u => u.2.2 := by
    have hn := hlist.hosts
    rw [hdone, List.map_append, List.map_cons, List.nodup_append] at hn
    exact fun hmem => hn.2.2 _ hmem _ List.mem_cons_self rfl
  obtain ⟨u, hu, s, his, hsj, hkey, hnow⟩ := scanned_read hh hmem
  intro x hx
  rw [List.mem_singleton.1 hx]
  refine ⟨t, u, s, ht, hlist.target u hu, by omega, by omega, hkey, by rw [hnow], ?_⟩
  obtain ⟨v, hv⟩ := Option.isSome_iff_exists.1 (hP.last t ht)
  rw [hv, Option.getD_some] at hlast
  rw [← hP.frame t ht hnot, hv, ← hlast, hnow]

/-! ## Ticks -/

/-- When a tick reloads, the inputs of the config it loads rest until the tick is over; when it renews certificates,
the config that it loads does. -/
def QuietTick (h : Nat → World) (c : Crates) (w : Watcher) (i : Nat) : Prop :=
  ∀ r j l cfg, (readInputs w).run h i = ⟨r, j, l⟩ → (h j).load w.configPath = .ok cfg →
    (takesReload w r = true → QuietReload h w cfg.cfg i ((tick c w).run h i).next) ∧
    (takesCerts w r = true → QuietRenewal h w cfg.cfg j)

/-- The live table during a tick: that of before, with its last signatures, or a new one from a quiet reload. -/
def TickTable (h : Nat → World) (c : Crates) (w : Watcher) (i e : Nat) (w' : Watcher) (m : Nat) : Prop :=
  i ≤ m ∧ Listed w' ∧ (w'.treeLast = w.treeLast ∨ ∃ cfg a b, QuietReload h w cfg i e ∧ i ≤ a ∧ b ≤ m ∧
    TableOf (SiteRead h c a · · b) cfg.sites w'.live.runtime.vhosts.sites)

theorem TickTable.later {w w1 w2 : Watcher} {i e m n : Nat} (hw : TickTable h c w i e w1 m) (hmn : m ≤ n)
    (hl : w2.live.runtime.vhosts = w1.live.runtime.vhosts) (ht : w2.treeLast = w1.treeLast) : TickTable h c w i e w2 n := by
  refine ⟨hw.1.trans hmn, hw.2.1.core hl ht, ?_⟩
  rw [ht, hl]
  exact hw.2.2.imp_right fun ⟨cfg, a, b, hq, hia, hbm, htable⟩ => ⟨cfg, a, b, hq, hia, hbm.trans hmn, htable⟩

/-- What the scan of a tick installs was read by the tick before. -/
theorem TickTable.debounced {w w' : Watcher} {i e k m : Nat} (hw : TickTable h c w i e w' k) (hme : m < e) {x : Install}
    (hx : ScanInstall h w' k m x) : Debounced h w i e x := by
  obtain ⟨t, u, s, ht, hu, hks, hsm, hd, rfl, hlast⟩ := hx
  obtain ⟨hik, -, hsame | ⟨cfg, a, b, hq, hia, hbk, htable⟩⟩ := hw
  · rw [Debounced, ← hsame]
    exact hlast
  · obtain ⟨⟨q, hq1, hqr⟩, htrees⟩ := hq.target htable hia (by omega) ht
    obtain ⟨⟨q', hq2, hqr'⟩, -⟩ := hq.target htable hia (by omega) hu
    rw [hqr, hqr'] at hd
    have hroot : u.2.1 = t.2.1 := by rw [hqr, hqr', hq.told q' hq2 q hq1 hd]
    rw [Debounced, hroot]
    exact htrees s (by omega) (by omega)

theorem reload_debounced {w w0 : Watcher} {r : Readings} {i j e : Nat} (hij : i ≤ j) (hw0 : TickTable h c w i e w0 j)
    (hpath : w0.configPath = w.configPath) (hnow : r.cfgNow = fileSignature ((h i).info w.configPath))
    (hq : ∀ cfg, (h j).load w.configPath = .ok cfg → QuietReload h w cfg.cfg i e) :
    Obs.Holds h (fun m p => m < e → ∀ x ∈ p.installs, Debounced h w i e x) (reload c w0 r.cfgNow r.tlsNow) j
      fun a m => TickTable h c w i e a.watcher m := by
  refine reload_holds (fun seq err k hk => hw0.later hk rfl rfl) ?_
  intro cfg s rt seq order applied last k m l hload hsample hbuild hseed hjk hkm hml
  rw [hpath] at hload hsample
  have hquiet := hq cfg hload
  have htable := (buildRuntime_read w0.buildSeq k).of_run hbuild rt rfl
  obtain ⟨hnul, hroots⟩ := htable.keyed.rooted order
  have hseeds := fun t ht => (seedTrees_lookup s.trees t.2.2 (hroots t ht).1 _ _ _ hnul).of_run hseed
  -- the signatures of the new table are seeded for every target
  have hlisted : Listed (w0.reloaded cfg s rt applied last r.cfgNow seq) :=
    ⟨htable.keyed, fun t ht => (hseeds t ht).2 (.inl (hroots t ht).2)⟩
  refine ⟨fun hle x hx => ?_, fun t n hn => ⟨by omega, hlisted, .inr ⟨cfg.cfg, k, m, hquiet, by omega, by omega, htable⟩⟩⟩
  obtain ⟨-, ⟨infos, htls, hinfos⟩, hhash⟩ := (sample_silent w.configPath cfg.cfg (j + 1)).of_run hsample
  have hloaded : LoadedAs h w.configPath i e cfg w.cfgLast :=
    ⟨j, hij, by omega, hload, hquiet.config j hij (by omega)⟩
  rcases List.mem_cons.1 hx with rfl | hx
  · refine ⟨?_, hloaded⟩
    rw [hnow]
    exact hquiet.config i le_rfl (by omega)
  · rcases List.mem_cons.1 hx with rfl | hx
    · refine ⟨?_, hquiet.pemFiles, hloaded⟩
      rw [htls]
      refine hquiet.tls (j := k) (by omega) (hinfos.imp fun p info hp => ?_)
      obtain ⟨n, hjn, hnk, hn⟩ := hp
      exact ⟨n, by omega, hnk, hn⟩
    · -- the tree of a target was sampled under the root it was built from
      obtain ⟨t, ht, rfl⟩ := List.mem_map.1 hx
      have htarget := mem_scanTargets htable.keyed.shared ht
      obtain ⟨⟨q, hq1, hqr⟩, htrees⟩ := hquiet.target htable (by omega) (by omega) htarget
      have hsteady := hquiet.steady (show i ≤ j + 1 by omega) (show j + 1 ≤ m by omega) (by omega)
      obtain ⟨n, hjn, hnk, hsig⟩ := hsteady.sampled hkm hhash hq1
      rw [hquiet.resolve hq1 (by omega) (by omega), ← hqr] at hsig
      have happlied := (hseeds t htarget).1 _ hsig (.inl (hroots t htarget).2)
      show w.treeLast.lookup (targetKey t) = some ((applied.lookup (targetKey t)).getD 0)
      rw [htrees n (by omega) (by omega)]
      rw [targetKey, happlied]
      rfl

theorem tick_debounced {w : Watcher} {i : Nat} (hw : Listed w) (hq : QuietTick h c w i) :
    Obs.Holds h (fun m p => m < ((tick c w).run h i).next → ∀ x ∈ p.installs, Debounced h w i ((tick c w).run h i).next x)
      (tick c w) i fun w' _ => Listed w' := by
  unfold QuietTick at hq
  generalize ((tick c w).run h i).next = e at *
  obtain ⟨r, j, hread, hnow, hij⟩ := readInputs_run h w i
  have hstart : TickTable h c w i e w j := ⟨hij, hw, .inl rfl⟩
  refine tick_holds (P := fun w' _ m => TickTable h c w i e w' m) (Q := fun w' m => TickTable h c w i e w' m) hread ?_
    (fun w1 t k hP => ⟨by simp, hP.later (Nat.le_succ k) rfl rfl⟩) fun w1 k hQ => ?_
  · refine applyInputs_holds (P := fun w' _ m => TickTable h c w i e w' m)
      (fun w1 w2 t j k hcore hjk hP => hP.later hjk (by rw [hcore.live]) hcore.treeLast) ?_ ?_ fun _ _ => hstart
    · intro htakes w0 hcore
      exact reload_debounced hij (hstart.later le_rfl (by rw [hcore.live]) hcore.treeLast) hcore.configPath hnow
        fun cfg hload => (hq r j [] cfg hread hload).1 htakes
    · intro htakes w0 hcore
      have hw0 : TickTable h c w i e w0 j := hstart.later le_rfl (by rw [hcore.live]) hcore.treeLast
      refine reloadTls_holds (fun err k hk => hw0.later hk rfl rfl) fun cfg tls k hload _ hk => ?_
      rw [hcore.configPath] at hload
      have hquiet := (hq r j [] cfg hread hload).2 htakes
      refine ⟨fun hke x hx => ?_, hw0.later (hk.trans (Nat.le_succ k)) rfl rfl⟩
      -- this arm runs on a signature that is the last one
      rw [List.mem_singleton.1 hx]
      simp only [takesCerts, tlsChanged, Bool.and_eq_true, decide_eq_true_eq] at htakes
      exact ⟨htakes.2.2, hquiet.pemFiles, j, hij, by omega, hload, hquiet.config⟩
  · refine (scan_installs hQ.2.1).mono (fun m p hI hme x hx => hQ.debounced hme (hI x hx)) fun w2 l hl => ?_
    exact ⟨by simp, hl⟩

theorem boot_listed (h : Nat → World) (c : Crates) (path : Str) :
    Obs.Holds h (fun _ _ => True) (boot c path) 0 fun x _ => ∀ w, x = .ok w → Listed w := by
  refine boot_holds fun cfg s rt seq https http loops j k l _ _ hbuild _ _ _ _ => watchInit_holds ?_
  intro w order m _ _ _ hlive _ hlast _
  have htable := (buildRuntime_read 0 j).of_run hbuild rt rfl
  refine ⟨trivial, ?_, ?_⟩
  · rw [hlive]
    exact htable.keyed
  · rw [hlive]
    intro t ht
    exact hlast _ _ ((htable.keyed.rooted order).2 t ht).2

/-- Debounce, over every run: while the inputs of each full reload rest, and the config of each renewal, everything that
a tick installs carries the signature that the tick before read of it. -/
theorem process_debounced (c : Crates) (path : Str) (h : Nat → World) (n : Nat)
    (hq : EachTick c path h (QuietTick h c) n) :
    EachTick c path h (fun w i => ∀ e ∈ ((tick c w).run h i).trace, ∀ x ∈ e.2.installs,
      Debounced h w i ((tick c w).run h i).next x) n := by
  refine EachTick.imp (P := fun w _ => Listed w) (boot_listed h c path) (fun w i hw hquiet => ?_) hq
  have htick := tick_debounced hw hquiet
  exact ⟨fun e he => htick.1 e he (Obs.trace_within (tick c w) i e he).2, htick.2⟩

/-- A config edit at one time, and a renewal at another. -/
def editAndRenewal (edited renewed k : Nat) : World :=
  .small (if k < edited then confOf [str "a.example"] else confOf [str "a.example"] ++ str "\n") (if k < edited then 1 else 2)
    (if k < renewed then 1 else 2)

/-- A machine that stands still for a while, and a config without roots, whose files the tick before read as they
are. -/
theorem QuietReload.of_still {w : Watcher} {cfg : Config} {i e : Nat} (hstill : ∀ k, i ≤ k → k < e → h k = h i)
    (hroots : cfg.roots = []) (hconfig : fileSignature ((h i).info w.configPath) = w.cfgLast)
    (hfiles : tlsPaths cfg = w.tlsFiles) (hpems : tlsSignature ((tlsPaths cfg).map (h i).info) = w.tlsLast) :
    QuietReload h w cfg i e := by
  have hnone : ∀ q, q ∉ cfg.roots := by simp [hroots]
  exact ⟨fun k hik hke => by rw [hstill k hik hke, hconfig], hfiles, fun k hik hke _ _ => by rw [hstill k hik hke], hpems,
    fun q hq => absurd hq (hnone q), fun q hq => absurd hq (hnone q),
    fun s hs _ _ _ q hq => absurd (List.mem_filterMap.2 ⟨s, hs, hq⟩) (hnone q)⟩

/-- The config edit first, the renewal after it: one tick reloads, a later one renews, and both find their inputs at
rest. -/
theorem process_debounced_edit : EachTick anyPem confPath (editAndRenewal 14 40) (fun w i =>
    ∀ e ∈ ((tick anyPem w).run (editAndRenewal 14 40) i).trace, ∀ x ∈ e.2.installs,
      Debounced (editAndRenewal 14 40) w i ((tick anyPem w).run (editAndRenewal 14 40) i).next x) 6 := by
  have hchecked : EachTick anyPem confPath (editAndRenewal 14 40) (fun w i => 14 ≤ i ∧
      let r := (readInputs w).run (editAndRenewal 14 40) i
      ((editAndRenewal 14 40 r.next).load w.configPath).toOption.all (fun cfg =>
        (!takesReload w r.value || (cfg.cfg.roots.isEmpty && decide (tlsPaths cfg.cfg = w.tlsFiles) &&
          decide (fileSignature ((editAndRenewal 14 40 i).info w.configPath) = w.cfgLast) &&
          decide (tlsSignature ((tlsPaths cfg.cfg).map (editAndRenewal 14 40 i).info) = w.tlsLast) &&
          decide (((tick anyPem w).run (editAndRenewal 14 40) i).next ≤ 40))) &&
        (!takesCerts w r.value || (decide (tlsPaths cfg.cfg = w.tlsFiles) &&
          decide (fileSignature ((editAndRenewal 14 40 r.next).info w.configPath) = w.cfgLast)))) = true) 6 :=
    eachTick_of_all (by decide +kernel)
  refine process_debounced anyPem confPath (editAndRenewal 14 40) 6 (hchecked.mono ?_)
  rintro w i ⟨hi, hrest⟩ r j l cfg hread hload
  rw [hread] at hrest
  simp only [hload, Except.toOption, Option.all_some, Bool.and_eq_true, Bool.or_eq_true, List.isEmpty_iff, decide_eq_true_eq,
    Bool.not_eq_true'] at hrest
  obtain ⟨hreload, hcerts⟩ := hrest
  refine ⟨fun htakes => ?_, fun htakes => ?_⟩
  · obtain ⟨⟨⟨⟨hroots, hfiles⟩, hconfig⟩, hpems⟩, hend⟩ := hreload.resolve_left (by simp [htakes])
    refine .of_still (fun k hik hke => ?_) hroots hconfig hfiles hpems
    have hi' : ¬ i < 14 := by omega
    have hk' : ¬ k < 14 := by omega
    have hi2 : i < 40 := by omega
    have hk2 : k < 40 := by omega
    simp only [editAndRenewal, hi', hk', hi2, hk2, if_false, if_true]
  · obtain ⟨hfiles, hconfig⟩ := hcerts.resolve_left (by simp [htakes])
    exact ⟨hconfig, hfiles⟩

/-- What can be computed of it: the signatures alone. -/
def signedAs (h : Nat → World) (w : Watcher) (i e : Nat) : Install → Bool
  | .config _ sig => sig == w.cfgLast
  | .certs _ sig => sig == w.tlsLast &&
    (List.range e).any fun k => decide (i ≤ k) && fileSignature ((h k).info w.configPath) == w.cfgLast
  | .tree key sig => w.treeLast.lookup key == some sig

theorem Debounced.signedAs {w : Watcher} {i e : Nat} {x : Install} (hx : Debounced h w i e x) : signedAs h w i e x = true := by
  cases x with
  | config cfg sig => exact beq_iff_eq.2 hx.1
  | certs cfg sig =>
    obtain ⟨hsig, -, k, hik, hke, -, hconfig⟩ := hx
    rw [BareServer.signedAs, Bool.and_eq_true, List.any_eq_true]
    exact ⟨beq_iff_eq.2 hsig, k, List.mem_range.2 hke, by rw [decide_eq_true hik, Bool.true_and]; exact beq_iff_eq.2 hconfig⟩
  | tree key sig => exact beq_iff_eq.2 hx

/-- A run is not debounced when a signature shows it. -/
theorem not_debounced {n : Nat} (hany : ¬ EachTick c path h (fun w i => (((tick c w).run h i).trace.all fun e =>
    e.2.installs.all (signedAs h w i ((tick c w).run h i).next)) = true) n) : ¬ EachTick c path h (fun w i =>
      ∀ e ∈ ((tick c w).run h i).trace, ∀ x ∈ e.2.installs, Debounced h w i ((tick c w).run h i).next x) n := by
  refine fun hall => hany (hall.mono fun w i hw => ?_)
  exact List.all_eq_true.2 fun e he => List.all_eq_true.2 fun x hx => (hw e he x hx).signedAs

/-- At the second tick certificates that changed after the first one's look go live with a config edit; and a config
that changed after it is loaded with a renewal. -/
theorem renewal_with_edit :
    ¬ EachTick anyPem confPath (editAndRenewal 14 21) (fun w i =>
      ∀ e ∈ ((tick anyPem w).run (editAndRenewal 14 21) i).trace, ∀ x ∈ e.2.installs,
        Debounced (editAndRenewal 14 21) w i ((tick anyPem w).run (editAndRenewal 14 21) i).next x) 2 ∧
    ¬ EachTick anyPem confPath (editAndRenewal 21 14) (fun w i =>
      ∀ e ∈ ((tick anyPem w).run (editAndRenewal 21 14) i).trace, ∀ x ∈ e.2.installs,
        Debounced (editAndRenewal 21 14) w i ((tick anyPem w).run (editAndRenewal 21 14) i).next x) 2 :=
  ⟨not_debounced (not_eachTick_of_any (by decide +kernel)), not_debounced (not_eachTick_of_any (by decide +kernel))⟩

end BareServer
