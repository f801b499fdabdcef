/-
Hot reload against restart (`main.rs`, `watch` and `main`): a watcher at rest serves what a process that starts now
would serve. The live table is the one its config describes, with the roots where the recorded links lead and caches
of the trees as they are; with storage in memory two such tables answer every request alike.
-/
import BareServer.Watch.Rest
import BareServer.Watch.Meeting
import BareServer.Serve.Handle

namespace BareServer

open BareServer.Lib

variable {h : Nat → World} {c : Crates} {path : Str} {v : World} {i : Nat}

/-! ## One block for a host -/

theorem buildSites_nodup {E : Type} {d : Compressors} {cfg : Config} : ∀ {todo : List SiteConfig} {taken : List Str}
    {sites : Sites} {id total seq i : Nat}, Taken taken sites → taken.Nodup →
    Obs.Holds h (fun _ _ => False) (buildSites d cfg sites id total seq todo : Look E _) i fun r _ =>
      ∀ x, r.1 = .ok x → (taken ++ todo.flatMap fun s => s.hosts).Nodup
  | [], taken, sites, id, total, seq, i, _, hn => by
    rw [buildSites, Obs.holds_pure]
    intro _ _
    simpa using hn
  | s :: todo, taken, sites, id, total, seq, i, ht, hn => by
    rw [buildSites]
    refine (buildSite_from s id total seq i).bind fun r j _ => ?_
    obtain ⟨r, seq'⟩ := r
    cases r with
    | error e => simp
    | ok st =>
      obtain ⟨site, total'⟩ := st
      simp only
      cases hins : insertHosts site s.hosts sites with
      | error e => simp
      | ok sites' =>
        have hn' := insertHosts_nodup ht hins hn
        obtain ⟨sites'', hok, ht'⟩ := @insertHosts_ok site _ _ _ ht hn'
        cases hins.symm.trans hok
        rw [List.flatMap_cons, ← List.append_assoc]
        exact buildSites_nodup ht' hn'

/-- In a config whose table can be built a host is in one block. -/
theorem buildRuntime_nodup (cfg : Config) (seq i : Nat) : Obs.Holds h (fun _ _ => False) (buildRuntime c cfg seq : Watch _) i
    fun r _ => ∀ rt, r.1 = .ok rt → (cfg.sites.flatMap fun s => s.hosts).Nodup := by
  refine (buildRuntime_holds (V := fun _ _ => (cfg.sites.flatMap fun s => s.hosts).Nodup) seq i fun j _ => ?_).post
    fun r _ hr rt hrt => (hr rt hrt).1
  unfold buildVhosts
  simp only
  refine (buildSites_nodup taken_empty List.nodup_nil).bind fun r k hr => ?_
  obtain ⟨r, seq'⟩ := r
  cases r with
  | error e => simp
  | ok sites =>
    rw [Obs.holds_pure]
    intro _ _
    simpa using hr sites rfl

theorem block_unique {blocks : List SiteConfig} (hn : (blocks.flatMap fun s => s.hosts).Nodup) {s s' : SiteConfig}
    (hs : s ∈ blocks) (hs' : s' ∈ blocks) {host : Str} (hh : host ∈ s.hosts) (hh' : host ∈ s'.hosts) : s = s' := by
  by_contra hne
  have hsymm : Std.Symm (Function.onFun List.Disjoint fun s : SiteConfig => s.hosts) := ⟨fun _ _ hab => hab.symm⟩
  exact (List.nodup_flatMap.1 hn).2.forall hs hs' hne hh hh'

/-! ## Tables of a config -/

/-- A site as its block describes it, its root where it was found at some moment of a build. -/
structure SiteFound (h : Nat → World) (cfg : Config) (a : Nat) (s : SiteConfig) (site : Site) (k : Nat) : Prop where
  forceSsl : site.forceSsl = s.forceSsl
  canonicalUrls : site.canonicalUrls = s.canonicalUrls
  redirects : site.redirects = s.redirects
  policy : site.policy = sitePolicy cfg s
  rootless : s.root = none → site.root = none ∧ site.cache = .empty
  found : ∀ r, s.root = some r → ∃ p l, a ≤ l ∧ l < k ∧ (h l).canonicalize r = .ok p ∧ site.root = some p

theorem SiteFound.later {cfg : Config} {a j k : Nat} {s : SiteConfig} {site : Site} (hs : SiteFound h cfg a s site j)
    (hjk : j ≤ k) : SiteFound h cfg a s site k := by
  refine ⟨hs.forceSsl, hs.canonicalUrls, hs.redirects, hs.policy, hs.rootless, fun r hr => ?_⟩
  obtain ⟨p, l, hal, hlj, hrest⟩ := hs.found r hr
  exact ⟨p, l, hal, by omega, hrest⟩

theorem buildSite_found {E : Type} {cfg : Config} (s : SiteConfig) (id total seq : Nat) {a j : Nat} (haj : a ≤ j) :
    Obs.Holds h (fun _ _ => False) (buildSite c.compressors cfg s id total seq : Look E _) j fun r k =>
      ∀ site total', r.1 = .ok (site, total') → site.id = id ∧ SiteFound h cfg a s site k := by
  unfold buildSite
  simp only
  split
  · simp
  · cases hroot : s.root with
    | none =>
      rw [Obs.holds_pure]
      rintro site total' ⟨⟩
      exact ⟨rfl, rfl, rfl, rfl, rfl, fun _ => ⟨rfl, rfl⟩, fun r hr => (by rw [hroot] at hr; cases hr)⟩
    | some r =>
      simp only [Obs.holds_bind, Obs.holds_view]
      cases hcan : (h j).canonicalize r with
      | error e => simp
      | ok root =>
        simp only [Obs.holds_bind, Obs.holds_view]
        split
        · simp
        · simp only [Obs.holds_bind, Obs.holds_view]
          split
          · simp
          · rw [Obs.holds_pure]
            rintro site total'' ⟨⟩
            refine ⟨rfl, rfl, rfl, rfl, rfl, fun hr => (by rw [hroot] at hr; cases hr), fun r' hr => ?_⟩
            cases hroot.symm.trans hr
            exact ⟨root, j, haj, by omega, hcan, rfl⟩

/-- A site as its block describes it, its root where the block's root resolves to. -/
structure SiteAt (v : World) (cfg : Config) (s : SiteConfig) (site : Site) : Prop where
  forceSsl : site.forceSsl = s.forceSsl
  canonicalUrls : site.canonicalUrls = s.canonicalUrls
  redirects : site.redirects = s.redirects
  policy : site.policy = sitePolicy cfg s
  root : site.root = s.root.map v.resolve
  bare : site.root = none → site.cache = .empty

/-- A host table as its config describes it. -/
structure Described (v : World) (cfg : Config) (x : Vhosts) : Prop where
  sites : TableOf (SiteAt v cfg) cfg.sites x.sites
  httpsPort : x.httpsPort = cfg.port
  httpPort : x.httpPort = cfg.httpPort
  errors : x.errors = ErrorPages.new cfg.headers.render
  nodup : (cfg.sites.flatMap fun s => s.hosts).Nodup

/-- A steady build gives the table its config describes. -/
theorem SteadyBuild.described {cfg : Config} {a j k seq seq' : Nat} {rt : Runtime} {l : List (Nat × Publication)}
    (hs : SteadyBuild h a k cfg) (hb : (buildRuntime c cfg seq).run h j = ⟨(.ok rt, seq'), k, l⟩) (haj : a ≤ j) :
    Described (h a) cfg rt.vhosts := by
  have htable := ((buildRuntime_holds (V := fun x k => TableOf (SiteFound h cfg j · · k) cfg.sites x.sites ∧
      x.httpsPort = cfg.port ∧ x.httpPort = cfg.httpPort ∧ x.errors = ErrorPages.new cfg.headers.render) seq j
    fun _ hjl => buildVhosts_table (fun _ _ _ _ hS hle => hS.later hle)
      (fun s id total seq _ hl => buildSite_found s id total seq (hjl.trans hl)) seq).of_run hb rt rfl).1
  obtain ⟨hsites, hhttps, hhttp, herrors⟩ := htable
  refine ⟨⟨fun host site hl => ?_, hsites.hosts, hsites.same, hsites.below⟩, hhttps, hhttp, herrors,
    (buildRuntime_nodup cfg seq j).of_run hb rt rfl⟩
  obtain ⟨s, hmem, hh, hS⟩ := hsites.site host site hl
  refine ⟨s, hmem, hh, hS.forceSsl, hS.canonicalUrls, hS.redirects, hS.policy, ?_, fun hnone => ?_⟩
  · cases hroot : s.root with
    | none => exact (hS.rootless hroot).1
    | some r =>
      obtain ⟨p, l, hjl, hlk, hcan, hp⟩ := hS.found r hroot
      have hres := hs.resolve (List.mem_filterMap.2 ⟨s, hmem, hroot⟩) (haj.trans hjl) hlk.le
      rw [World.resolve, hcan] at hres
      rw [hp, Option.map_some, ← hres]
      rfl
  · cases hroot : s.root with
    | none => exact (hS.rootless hroot).2
    | some r =>
      obtain ⟨p, l, -, -, -, hp⟩ := hS.found r hroot
      rw [hp] at hnone
      cases hnone

/-- A table is described by any world in which the roots of its config resolve alike. -/
theorem Described.congr {cfg : Config} {u : World} {x : Vhosts} (hx : Described u cfg x)
    (hr : ∀ r ∈ cfg.roots, v.resolve r = u.resolve r) : Described v cfg x := by
  refine ⟨⟨fun host site hl => ?_, hx.sites.hosts, hx.sites.same, hx.sites.below⟩, hx.httpsPort, hx.httpPort,
    hx.errors, hx.nodup⟩
  obtain ⟨s, hmem, hh, hS⟩ := hx.sites.site host site hl
  refine ⟨s, hmem, hh, hS.forceSsl, hS.canonicalUrls, hS.redirects, hS.policy, ?_, hS.bare⟩
  rw [hS.root]
  cases hroot : s.root with
  | none => rfl
  | some r => rw [Option.map_some, Option.map_some, hr r (List.mem_filterMap.2 ⟨s, hmem, hroot⟩)]

/-- A new cache for a site with a root leaves the table described. -/
theorem Described.setCache {cfg : Config} {x : Vhosts} (hx : Described v cfg x) {t : Site × Path × Str}
    (ht : Target x.sites t) (cache : SiteCache) :
    Described v cfg { x with sites := x.sites.setCache t.1.id cache } := by
  have hold : ∀ {host : Str} {site : Site}, (x.sites.setCache t.1.id cache).lookup host = some site →
      ∃ y, x.sites.lookup host = some y ∧ (if y.id == t.1.id then { y with cache } else y) = site := by
    intro host site hl
    rw [Sites.setCache, Map.lookup_mapVal] at hl
    exact Option.map_eq_some_iff.1 hl
  refine ⟨⟨fun host site hl => ?_, fun s hmem => ?_, Sites.Shared.setCache hx.sites.same _ _, fun host site hl => ?_⟩,
    hx.httpsPort, hx.httpPort, hx.errors, hx.nodup⟩
  · obtain ⟨y, hy, rfl⟩ := hold hl
    obtain ⟨s, hmem, hh, hS⟩ := hx.sites.site host y hy
    refine ⟨s, hmem, hh, ?_⟩
    split
    · rename_i hid
      -- the site of a target has a root
      have hsite : y = t.1 := hx.sites.same _ _ _ _ hy ht.lookup (by simpa using hid)
      refine ⟨hS.forceSsl, hS.canonicalUrls, hS.redirects, hS.policy, hS.root, fun hnone => ?_⟩
      rw [hsite] at hnone
      exact absurd (ht.root.symm.trans hnone) (by simp)
    · exact hS
  · obtain ⟨y, hy⟩ := hx.sites.hosts s hmem
    refine ⟨if y.id == t.1.id then { y with cache } else y, fun host hh => ?_⟩
    rw [Sites.setCache, Map.lookup_mapVal, hy host hh]
    rfl
  · obtain ⟨y, hy, rfl⟩ := hold hl
    have hbelow := hx.sites.below host y hy
    split <;> exact hbelow

/-! ## Links -/

theorem rootLinks_read {E : Type} (cfg : Config) (i : Nat) : Obs.Holds h (fun _ _ => False) (rootLinks cfg : Look E _) i
    fun links j => List.Forall₂ (fun r l => ∃ k, i ≤ k ∧ k < j ∧ l = (r, (h k).resolve r)) cfg.roots links := by
  unfold rootLinks resolveRoot
  refine Obs.holds_each (P := fun r l j => ∃ k, i ≤ k ∧ k < j ∧ l = (r, (h k).resolve r)) ?_ fun r _ j hij => ?_
  · rintro r l j k ⟨m, him, hmj, hl⟩ hjk
    exact ⟨m, him, by omega, hl⟩
  · rw [Obs.holds_bind, Obs.holds_view, Obs.holds_pure]
    exact ⟨j, hij, Nat.lt_succ_self j, rfl⟩

/-- The links that a sample records are those of its first moment, while a build is steady. -/
theorem SteadyBuild.links_sampled {E : Type} {cfg : Config} {a e : Nat} (hs : SteadyBuild h a e cfg) (path : Str) :
    Obs.Holds h (fun _ _ => False) (sample path cfg : Look E _) a fun s j => j ≤ e → s.links = (h a).links cfg := by
  unfold sample fileSignatureOf
  rw [Obs.holds_bind, Obs.holds_view]
  refine (tlsSignatureOf_silent _ _).moments.bind fun tls j hj => ?_
  have htrees : Obs.Holds h (fun _ _ => False) (Obs.fold sampleTree ∅ cfg.roots : Look E _) j fun _ _ => True := by
    refine Obs.holds_fold_done (P := fun _ _ _ => True) trivial fun done r _ _ trees k _ _ => ?_
    unfold sampleTree resolveRoot
    rw [Obs.holds_bind, Obs.holds_view]
    exact (hashTree_silent _ _ _).post fun _ _ _ => trivial
  refine htrees.moments.bind fun trees k hk => ?_
  refine (rootLinks_read cfg k).bind fun links l hlinks => ?_
  rw [Obs.holds_pure]
  intro hle
  have hres : ∀ r ∈ cfg.roots, ∀ m, k ≤ m → m < l → (h m).resolve r = (h a).resolve r :=
    fun r hr m hkm hml => hs.resolve hr (by omega) (by omega)
  show links = cfg.roots.map fun r => (r, (h a).resolve r)
  clear hs
  revert hres
  generalize cfg.roots = roots at hlinks
  intro hres
  induction hlinks with
  | nil => rfl
  | cons hl _ ih =>
    obtain ⟨m, hkm, hml, rfl⟩ := hl
    rw [List.map_cons, hres _ List.mem_cons_self m hkm hml, ih fun r hr => hres r (List.mem_cons_of_mem _ hr)]

/-- The live table is as its config describes it with the links that are recorded as applied. -/
def Linked (h : Nat → World) (w : Watcher) : Prop :=
  ∃ a, w.linksApplied = (h a).links w.live.vhostsFrom.cfg ∧ Described (h a) w.live.vhostsFrom.cfg w.live.runtime.vhosts

theorem Linked.congr {w w' : Watcher} (hw : Linked h w) (hl : w'.linksApplied = w.linksApplied)
    (hf : w'.live.vhostsFrom = w.live.vhostsFrom) (hv : w'.live.runtime.vhosts = w.live.runtime.vhosts) : Linked h w' := by
  unfold Linked
  rw [hl, hf, hv]
  exact hw

section

variable {H : Nat → World} {τ : Nat → Nat}

theorem scan_linked {w : Watcher} (hk : Keyed w.live.runtime.vhosts.sites) (hw : Linked h w) :
    Obs.Holds h (fun _ _ => True) (scan c w) i fun w' _ => Linked h w' := by
  refine scan_holds (P := fun _ w' _ => Linked h w' ∧ Recached w.live.runtime.vhosts.sites w'.live.runtime.vhosts.sites)
    (fun _ _ => ⟨hw, .refl _⟩) ?_ fun _ _ _ hP => hP.1
  rintro order sigs targets j htargets _ done t rest hdone w' k _ ⟨⟨a, hlinks, hdesc⟩, hre⟩
  have hmem : t ∈ targets := by
    rw [hdone]
    simp
  rw [htargets] at hmem
  obtain ⟨x, hx, hbare⟩ := ((orderTargets_scanList hk.shared order).target t hmem).recached hre hk.shared
  refine scanSite_holds (fun seq failed m _ => ⟨⟨a, hlinks, hdesc⟩, hre⟩) fun cache total seq _ _ => ⟨trivial, ?_, ?_⟩
  · refine ⟨a, hlinks, ?_⟩
    rw [← Site.bare_id hbare]
    exact hdesc.setCache hx cache
  · exact hre.trans (recached_setCache _ _ _)

theorem tick_linked {w : Watcher} (hk : Keyed w.live.runtime.vhosts.sites) (hw : Linked (seen H τ) w)
    (hs : SteadyTick H τ c w i) : Obs.Holds (seen H τ) (fun _ _ => True) (tick c w) i fun w' _ =>
      Linked (seen H τ) w' := by
  obtain ⟨r, j, hread, -, hij⟩ := readInputs_run (seen H τ) w i
  let P (w' : Watcher) : Prop := Keyed w'.live.runtime.vhosts.sites ∧ Linked (seen H τ) w'
  have hP : P w := ⟨hk, hw⟩
  refine tick_holds (P := fun w' _ _ => P w') (Q := fun w' _ => P w') hread ?_ (fun w1 t k hP => ⟨trivial, hP⟩)
    fun w1 k hQ => (scan_linked hQ.1 hQ.2).post fun w2 l hl => ⟨trivial, hl⟩
  have hcore : ∀ {w1 w2 : Watcher}, SameCore w1 w2 → P w1 → P w2 := by
    intro w1 w2 hcore hP
    exact ⟨by rw [hcore.live]; exact hP.1, hP.2.congr hcore.linksApplied (by rw [hcore.live]) (by rw [hcore.live])⟩
  refine applyInputs_holds (P := fun w' _ _ => P w') (fun w1 w2 t j k hc _ hP => hcore hc hP) (fun htakes w0 hw0 => ?_)
    (fun _ w0 hw0 => ?_) fun _ _ => hP
  · have hP0 := hcore hw0 hP
    refine reload_holds (fun seq e k _ => hP0) ?_
    intro cfg s rt seq order applied last k l m hload hsample hbuild _ hjk hkl _
    rw [hw0.configPath] at hload hsample
    rw [hw0.buildSeq] at hbuild
    have hsteady := (hs.reload r j [] cfg hread htakes hload).1 s k _ l [] [] hsample hbuild
    have hnew : P (w0.reloaded cfg s rt applied last r.cfgNow seq) :=
      ⟨((buildRuntime_read w.buildSeq k).of_run hbuild rt rfl).keyed, j + 1,
        (hsteady.links_sampled w.configPath).of_run hsample hkl, hsteady.described hbuild (by omega)⟩
    exact ⟨trivial, fun _ _ _ => hnew⟩
  · have hP0 := hcore hw0 hP
    exact reloadTls_holds (fun e k _ => hP0) fun cfg tls k _ _ _ => ⟨trivial, hP0.1, hP0.2.congr rfl rfl rfl⟩

end

/-! ## Caches in memory -/

theorem foldlM_enter {env : BuildEnv} {p : Policy} {buildDir : Option Path} : ∀ {fs : List Found} {b b' : Building},
    fs.foldlM (walkFound env p buildDir) b = some b' → b'.map = fs.foldl (enter env p buildDir) b.map
  | [], b, b', hf => by
    cases hf
    rfl
  | f :: fs, b, b', hf => by
    rw [List.foldlM_cons, walkFound_eq] at hf
    split at hf
    · cases hf
    · exact @foldlM_enter env p buildDir fs _ b' hf

/-- In memory what is entered depends on the compressors only. -/
theorem enter_memory {env env' : BuildEnv} (henv : env.compressors = env'.compressors) (p : Policy) :
    enter env p none = enter env' p none := by
  have hentry : entryFor env p none = entryFor env' p none := by
    funext url data
    rw [entryFor, entryFor, henv]
  funext m f
  rw [enter, enter, Found.entry, Found.entry, hentry]

/-- Two caches in memory of one tree under one policy are the same. -/
theorem BuiltFrom.cache_eq {x y : Site} {tree : Node} (hx : BuiltFrom c x tree) (hy : BuiltFrom c y tree)
    (hp : x.policy = y.policy) (hmem : x.policy.storage = .memory) : x.cache = y.cache := by
  obtain ⟨env, seq, total, total', seq', henv, hbx⟩ := hx
  obtain ⟨env2, seq2, total2, total2', seq2', henv2, hby⟩ := hy
  rw [← hp] at hby
  obtain ⟨fs, b, hfs, hfold, hcx⟩ := buildCache_some hbx
  obtain ⟨fs2, b2, hfs2, hfold2, hcy⟩ := buildCache_some hby
  cases hfs.symm.trans hfs2
  have hdir : ∀ n, snapshotDir x.policy n = none := fun n => by rw [snapshotDir, hmem]
  rw [hdir] at hfold hfold2 hcx hcy
  have hmap : b.map = b2.map := by
    rw [foldlM_enter hfold, foldlM_enter hfold2, enter_memory (henv.trans henv2.symm)]
  rw [hcx, hcy, hmap]
  rfl

/-! ## Replies -/

/-- A site without its identity. -/
def Site.plain (s : Site) : Site := { s with id := 0 }

/-- Two host tables that differ in the identities of their sites only. -/
structure Alike (x y : Vhosts) : Prop where
  sites : ∀ host, (x.sites.lookup host).map Site.plain = (y.sites.lookup host).map Site.plain
  httpsPort : x.httpsPort = y.httpsPort
  httpPort : x.httpPort = y.httpPort
  errors : x.errors = y.errors

/-- A site's replies depend neither on its identity nor on the other sites. -/
theorem Alike.handleSite {x y : Vhosts} (hxy : Alike x y) {s s' : Site} (hs : s.plain = s'.plain) (fs : FileSys)
    (req : Request) (hostKey : Str) (keepAlive redirectHttps : Bool) :
    BareServer.handleSite fs s x req hostKey keepAlive redirectHttps =
      BareServer.handleSite fs s' y req hostKey keepAlive redirectHttps := by
  have hx : BareServer.handleSite fs s x req hostKey keepAlive redirectHttps =
      BareServer.handleSite fs s.plain x req hostKey keepAlive redirectHttps := rfl
  have hy : BareServer.handleSite fs s' y req hostKey keepAlive redirectHttps =
      BareServer.handleSite fs s'.plain y req hostKey keepAlive redirectHttps := rfl
  rw [hx, hy, hs]
  unfold BareServer.handleSite redirectFor serveContent dirLocation
  rw [hxy.httpsPort, hxy.httpPort]

/-- They answer every request alike. -/
theorem Alike.handleRequest {x y : Vhosts} (hxy : Alike x y) (fs : FileSys) (head : Bytes) (wantKa redirectHttps : Bool)
    (sni : Option Str) : BareServer.handleRequest fs head x wantKa redirectHttps sni =
      BareServer.handleRequest fs head y wantKa redirectHttps sni := by
  unfold BareServer.handleRequest
  rw [hxy.errors]
  cases readRequest head with
  | error isHead => rfl
  | ok req =>
    simp only [handleAccepted, hxy.errors]
    have hsites := hxy.sites (normalizeHost req.fields.hostHdr)
    split
    · rfl
    · cases hx : x.sites.lookup (normalizeHost req.fields.hostHdr) with
      | none =>
        rw [hx] at hsites
        rw [Option.map_eq_none_iff.1 hsites.symm]
      | some s =>
        rw [hx] at hsites
        obtain ⟨s', hs', hplain⟩ := Option.map_eq_some_iff.1 hsites.symm
        rw [hs']
        exact hxy.handleSite hplain.symm fs req _ _ _

/-- Every cache of a table is a build of the tree under its site's root. -/
def BuiltOf (c : Crates) (v : World) (sites : Sites) : Prop :=
  ∀ host site root, sites.lookup host = some site → site.root = some root → BuiltFrom c site (v.node root)

/-- Two tables of one config, with the roots and trees of one world and storage in memory, are alike. -/
theorem Described.alike {cfg : Config} {x y : Vhosts} (hx : Described v cfg x) (hy : Described v cfg y)
    (hcx : BuiltOf c v x.sites) (hcy : BuiltOf c v y.sites) (hmem : cfg.storage = .memory) : Alike x y := by
  have hpolicy : ∀ s, (sitePolicy cfg s).storage = .memory := fun _ => hmem
  -- a host's site in one of them and in the other is of one block
  have hsame : ∀ host a b, x.sites.lookup host = some a → y.sites.lookup host = some b → a.plain = b.plain := by
    intro host a b ha hb
    obtain ⟨s, hs, hh, hA⟩ := hx.sites.site host a ha
    obtain ⟨s', hs', hh', hB⟩ := hy.sites.site host b hb
    cases block_unique hx.nodup hs hs' hh hh'
    have hroot : a.root = b.root := hA.root.trans hB.root.symm
    have hpol : a.policy = b.policy := hA.policy.trans hB.policy.symm
    have hcache : a.cache = b.cache := by
      cases hr : a.root with
      | none => rw [hA.bare hr, hB.bare (hroot.symm.trans hr)]
      | some root =>
        have ha' := hcx host a root ha hr
        have hb' := hcy host b root hb (hroot.symm.trans hr)
        exact ha'.cache_eq hb' hpol (by rw [hA.policy]; exact hpolicy s)
    simp only [Site.plain, Site.mk.injEq]
    exact ⟨trivial, hroot, hcache, hA.forceSsl.trans hB.forceSsl.symm, hA.canonicalUrls.trans hB.canonicalUrls.symm,
      hA.redirects.trans hB.redirects.symm, hpol⟩
  have hnone : ∀ {a b : Vhosts}, Described v cfg a → Described v cfg b → ∀ host, b.sites.lookup host = none →
      a.sites.lookup host = none := by
    intro a b ha hb host hno
    by_contra hsome
    obtain ⟨site, hsite⟩ := Option.ne_none_iff_exists'.1 hsome
    obtain ⟨s, hs, hh, -⟩ := ha.sites.site host site hsite
    obtain ⟨site', hsite'⟩ := hb.sites.hosts s hs
    rw [hsite' host hh] at hno
    cases hno
  refine ⟨fun host => ?_, hx.httpsPort.trans hy.httpsPort.symm, hx.httpPort.trans hy.httpPort.symm,
    hx.errors.trans hy.errors.symm⟩
  cases ha : x.sites.lookup host with
  | none => rw [hnone hy hx host ha]
  | some a =>
    cases hb : y.sites.lookup host with
    | none =>
      rw [hnone hx hy host hb] at ha
      cases ha
    | some b => rw [Option.map_some, Option.map_some, hsame host a b ha hb]

/-- A table built from files that stand still is as the config describes it, of the trees as they are. -/
theorem StandsStill.built (hv : StandsStill h path v i) {cfg : Loaded} (hload : v.load path = .ok cfg) {seq seq' k : Nat}
    {rt : Runtime} {l : List (Nat × Publication)}
    (hb : (buildRuntime c cfg.cfg seq).run h i = ⟨(.ok rt, seq'), k, l⟩) :
    Described v cfg.cfg rt.vhosts ∧ BuiltOf c v rt.vhosts.sites := by
  refine ⟨((hv.steady hload k).described hb le_rfl).congr fun r _ => (hv.resolve le_rfl r).symm, ?_⟩
  intro host site root hl hroot
  obtain ⟨s, -, -, hread⟩ := ((buildRuntime_read seq i).of_run hb rt rfl).site host site hl
  obtain ⟨r, -, m, b, him, hmb, -, -, hbuilt⟩ := hread root hroot
  rwa [hv.node b (by omega)] at hbuilt

/-! ## Runs -/

section

variable {H : Nat → World} {τ : Nat → Nat}

theorem boot_linked (hs : SteadyBoot H τ c path) : Obs.Holds (seen H τ) (fun _ _ => True) (boot c path) 0
    fun x _ => ∀ w, x = .ok w → Linked (seen H τ) w := by
  refine boot_holds fun cfg s rt seq https http loops j k l hload hsample hbuild hj hjk _ _ => ?_
  obtain ⟨hsteady, -⟩ := hs cfg s j _ k [] [] hload hsample hbuild
  unfold watchInit fileSignatureOf
  rw [Obs.holds_bind, Obs.holds_view]
  refine (rootLinksOf_silent path _).silent.bind fun links m _ => ?_
  refine (tlsSignatureOf_silent s.tlsFiles m).silent.bind fun tls n _ => ?_
  rw [Obs.holds_bind, Obs.holds_view]
  refine (freshTrees_silent _).silent.bind fun last o _ => ?_
  dsimp only
  rw [Obs.holds_bind, Obs.holds_publish, Obs.holds_pure]
  exact ⟨trivial, 2, (hsteady.links_sampled path).of_run hsample hjk, hsteady.described hbuild hj⟩

/-- What a run under the conditions for content and config keeps of its states. -/
structure Faithful (H : Nat → World) (τ : Nat → Nat) (c : Crates) (path : Str) (w : Watcher) (m : Nat) : Prop where
  tracked : Tracked (seen H τ) c (fun root s b => b ≤ m ∧ Settled H τ root s b) w
  inOrder : ReadInOrder H τ path w m
  linked : Linked (seen H τ) w

/-- A faithful state at rest: its config is the file's, its links lead where they lead now, and its caches are builds of
the trees as they are. -/
theorem Faithful.atRest (hτ : Monotone τ) (ht : TreesTold H) (hf : EditsFresh H path) {w : Watcher} {m : Nat}
    (hw : Faithful H τ c path w m) (hv : StandsStill (seen H τ) path v m) (hrest : AtRest v w) {cfg : Loaded}
    (hload : v.load path = .ok cfg) :
    Described v cfg.cfg w.live.runtime.vhosts ∧ BuiltOf c v w.live.runtime.vhosts.sites := by
  have hpath := hw.inOrder.configPath
  have hnode : (H (τ m)).node = v.node := hv.node m le_rfl
  -- the config
  have hsig : sigAt H path (τ m) = w.cfgApplied := by
    rw [hrest.inputs.config, hpath]
    exact congrArg fileSignature (congrFun (hv.info m le_rfl) path)
  have htext := hw.inOrder.noLostEdit hτ hf (τ m) le_rfl hsig
  have htext' : v.text path = .ok w.live.vhostsFrom.text := by
    rw [← htext]
    exact (congrFun (hv.text m le_rfl) path).symm
  have hcfg : w.live.vhostsFrom.cfg = cfg.cfg := by
    refine Loaded.cfg_eq ?_
    rw [World.load_text hload] at htext'
    exact (Except.ok.inj htext').symm
  obtain ⟨a, hlinks, hdesc⟩ := hw.linked
  rw [hcfg] at hlinks hdesc
  constructor
  · refine hdesc.congr fun r hr => ?_
    have happlied := hrest.inputs.links (v.links cfg.cfg) (by rw [hpath, World.linksOf, hload]; rfl)
    rw [hlinks] at happlied
    exact ((Prod.mk.inj (List.map_inj_left.1 happlied r hr)).2).symm
  · intro host site root hl hroot
    -- the target that stands for the site
    obtain ⟨t, hmem, hid⟩ := (scanTargets_covers (iter w.live.runtime.vhosts.sites World.empty.order)).all host site
      (mem_iter.2 hl) (by rw [hroot]; rfl)
    have htarget := mem_scanTargets hw.tracked.keyed.shared hmem
    have hsite : t.1 = site := hw.tracked.keyed.shared _ _ _ _ htarget.lookup hl hid
    have htroot : t.2.1 = root := Option.some.inj (htarget.root.symm.trans (by rw [hsite, hroot]))
    obtain ⟨s, b, happlied, hbuilt, hbm, hset⟩ := hw.tracked.entry t htarget
    have hnow := hrest.trees t htarget
    rw [TreeApplied, happlied, Option.getD_some] at hnow
    -- the applied tree is the one of now, and so is the one the cache was built from
    have hs : (H (τ m)).node t.2.1 = (H (τ s)).node t.2.1 := by
      refine (ht _ _ _ ?_).symm
      rw [hnode]
      exact hnow
    rw [← hset (τ m) (hτ hbm) hs, hnode, hsite, htroot] at hbuilt
    exact hbuilt

/-- Hot reload is as good as a restart. Over every run whose builds are steady, whose trees settle and whose edits are
fresh, the config's text the same at the boot's load and its sample (`hread`) and trees told apart by their signatures:
where the files stand still and all is recorded as applied, a request gets the reply that it would get from a host
table built anew from the files, with storage in memory. -/
theorem rest_replies_restarted (hτ : Monotone τ) (ht : TreesTold H) (hf : EditsFresh H path) (hboot : SteadyBoot H τ c path)
    (hread : (H (τ 2)).text path = (H (τ 0)).text path) {n : Nat} (hticks : EachTick c path (seen H τ) (SteadyTick H τ c) n)
    {w : Watcher} {j : Nat} {l : List (Nat × Publication)} (hrun : (boot c path).run (seen H τ) 0 = ⟨.ok w, j, l⟩) {m : Nat}
    (hmn : m ≤ n) (hv : StandsStill (seen H τ) path v (Obs.reached (seen H τ) (tick c) m w j).2)
    (hrest : AtRest v (Obs.reached (seen H τ) (tick c) m w j).1) {cfg : Loaded} (hload : v.load path = .ok cfg)
    (hmem : cfg.cfg.storage = .memory) {a seq seq' k : Nat} {rt : Runtime} {l' : List (Nat × Publication)}
    (ha : (Obs.reached (seen H τ) (tick c) m w j).2 ≤ a)
    (hfresh : (buildRuntime c cfg.cfg seq).run (seen H τ) a = ⟨(.ok rt, seq'), k, l'⟩)
    (fs : FileSys) (head : Bytes) (wantKa redirectHttps : Bool) (sni : Option Str) :
    handleRequest fs head (Obs.reached (seen H τ) (tick c) m w j).1.live.runtime.vhosts wantKa redirectHttps sni =
      handleRequest fs head rt.vhosts wantKa redirectHttps sni := by
  have hstart : Faithful H τ c path w j :=
    ⟨(boot_contentKept hτ ht hboot).of_run hrun w rfl, (boot_readInOrder hτ hf hread).of_run hrun w rfl,
      (boot_linked hboot).of_run hrun w rfl⟩
  have hreached := Obs.EachRound.keeps (P := Faithful H τ c path) (fun u i hu hs =>
    ⟨(tick_contentKept hτ ht hu.tracked hs).2, (tick_readInOrder hτ hf hu.inOrder).2,
      (tick_linked hu.tracked.keyed hu.linked hs).2⟩) hstart (hticks w j l hrun) hmn
  obtain ⟨hlive, hbuilt⟩ := hreached.atRest hτ ht hf hv hrest hload
  obtain ⟨hnew, hnewBuilt⟩ := (hv.later ha).built hload hfresh
  exact (hlive.alike hnew hbuilt hnewBuilt hmem).handleRequest fs head wantKa redirectHttps sni

end

theorem deployed_fresh : EditsFresh deployed confPath := by
  have hsig : ∀ k, sigAt deployed confPath k = if 22 ≤ k then fileSignature (some ⟨1, some 2⟩)
      else fileSignature (some ⟨1, some 1⟩) := by
    intro k
    show fileSignature (some ⟨1, some (if confPath = confPath ∧ 22 ≤ k then 2 else 1)⟩) = _
    by_cases hk : 22 ≤ k <;> simp [hk]
  have hne : fileSignature (some ⟨1, some 2⟩) ≠ fileSignature (some ⟨1, some 1⟩) := by decide
  intro k hedit s hs
  by_cases hk : 22 ≤ k
  · -- after the deploy nothing changes
    have hk' : 22 ≤ k + 1 := by omega
    simp [hsig, hk, hk', deployed] at hedit
  · by_cases hk' : 22 ≤ k + 1
    · have hs' : ¬ 22 ≤ s := by omega
      rw [hsig, hsig, if_pos hk', if_neg hs']
      exact hne
    · simp [hsig, hk, hk', deployed] at hedit

/-- After the deploy the watcher replies as a process that starts then. -/
theorem rest_replies_restarted_deployed : ∃ w j l cfg rt seq k l', (boot anyPem confPath).run deployed 0 = ⟨.ok w, j, l⟩ ∧
    (deployed 22).load confPath = .ok cfg ∧
    (buildRuntime anyPem cfg.cfg 0 : Watch _).run deployed (Obs.reached deployed (tick anyPem) 2 w j).2 =
      ⟨(.ok rt, seq), k, l'⟩ ∧
    ∀ fs head wantKa redirectHttps sni,
      handleRequest fs head (Obs.reached deployed (tick anyPem) 2 w j).1.live.runtime.vhosts wantKa redirectHttps sni =
        handleRequest fs head rt.vhosts wantKa redirectHttps sni := by
  obtain ⟨w, j, l, hrun, hok⟩ := boot_of_any (c := anyPem) (h := deployed) confPath (fun w j =>
    decide (22 ≤ j) && w.live.runtime.vhosts.sites.values.all (fun s => s.root == some (str "/second")) &&
    (Obs.reached deployed (tick anyPem) 2 w j).1.failedAt.isNone &&
    (Obs.reached deployed (tick anyPem) 2 w j).1.treeFailed.entries.isEmpty &&
    ((deployed 22).load confPath).toOption.any (fun (cfg : Loaded) => decide (cfg.cfg.storage = Storage.memory) &&
      ((buildRuntime anyPem cfg.cfg 0 : Watch _).run deployed
        (Obs.reached deployed (tick anyPem) 2 w j).2).value.1.toOption.any fun _ => true)) (by decide +kernel)
  simp only [Bool.and_eq_true, decide_eq_true_eq, List.all_eq_true, beq_iff_eq, Option.isNone_iff_eq_none,
    List.isEmpty_iff] at hok
  obtain ⟨⟨⟨⟨hj, hroots⟩, hfailed⟩, hempty⟩, hany⟩ := hok
  obtain ⟨cfg, hload, hcfg⟩ := ok_of_any hany
  simp only [Bool.and_eq_true, decide_eq_true_eq] at hcfg
  obtain ⟨hmem, hbuilt⟩ := hcfg
  obtain ⟨rt, hrt, -⟩ := ok_of_any hbuilt
  obtain ⟨seq, k, l', hfresh⟩ : ∃ seq k l', (buildRuntime anyPem cfg.cfg 0 : Watch _).run deployed
      (Obs.reached deployed (tick anyPem) 2 w j).2 = ⟨(.ok rt, seq), k, l'⟩ := ⟨_, _, _, by rw [← hrt]⟩
  have hv := deployed_still.later hj
  have hw := boot_legible hrun (k := 0) (told_of_one hroots)
  have hb := (boot_backed deployed anyPem confPath).of_run hrun w rfl
  have hrest := (reached_brought hb hw hv (le_refl 2)).2 hfailed fun t _ hf => by
    rw [TreeFailed, AList.lookup, hempty] at hf
    cases hf
  -- the one root stays where it is, and its one edit is not taken back
  have hstill : ∀ k r, (deployed k).resolve r = str "/second" := fun _ _ => rfl
  have hsteady : ∀ a e cfg, SteadyBuild (seen deployed id) a e cfg := fun a e cfg =>
    ⟨fun _ _ _ _ _ => rfl, fun r _ r' _ _ => (hstill _ r).trans (hstill _ r').symm⟩
  have hsettles : ∀ a e root, Settles deployed id a e root := fun a e root => movedAt_settles 0 a e root
  refine ⟨w, j, l, cfg, rt, seq, k, l', hrun, hload, hfresh, fun fs head wantKa redirectHttps sni => ?_⟩
  exact rest_replies_restarted (H := deployed) monotone_id (movedAt_told 0) deployed_fresh
    (fun cfg _ _ _ k _ _ _ _ _ => ⟨hsteady 2 k cfg.cfg, fun _ _ => hsettles _ _ _⟩) rfl
    (eachTick_of_forall (fun w i => ⟨fun _ _ => hsettles _ _ _, fun _ _ _ _ _ _ _ =>
      ⟨fun _ _ _ _ _ _ _ _ => hsteady _ _ _, fun _ _ => hsettles _ _ _⟩⟩) 2) hrun (le_refl 2)
    (hv.later (reached_le (k := 0) (by decide))) hrest hload hmem le_rfl hfresh fs head wantKa redirectHttps sni

end BareServer
