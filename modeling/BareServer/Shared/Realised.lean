/-
The watcher is carried out on the shared state: whatever the workers do in between, its accesses can be taken one after
the other, and at every moment what is live is what it published last.
-/
import BareServer.Shared.Stages
import BareServer.Watch.SiteOrder

namespace BareServer

open BareServer.Lib

variable {dirs : Path → Prop} {sticks : Path → Bool} {base : Disk} {h : Nat → World} {c : Crates} {path : Str}

/-- What a publication of the watcher makes live. -/
def Publication.shown (e : Publication) : Option Runtime := some e.watcher.live.runtime

/-! ## Builds -/

section

variable {live : Option Runtime} {seq : Nat} {caches : List SiteCache}

theorem buildCache_memory_next {env : BuildEnv} {p : Policy} {root : Node} {total seq' : Nat}
    {r : Option (SiteCache × Nat)} (hs : p.storage = .memory) (hb : buildCache env p seq root total = (r, seq')) :
    seq' = seq := by
  have hnext : seq' = (buildCache env p seq root total).2 := by rw [hb]
  rw [hnext]
  unfold buildCache
  split
  · simp only [hs]
    split <;> rfl
  · rfl

/-- A build on disk takes a number as soon as it has read its root. -/
theorem buildCache_disk_next {env : BuildEnv} {p : Policy} {root : Node} {total seq' : Nat}
    {r : Option (SiteCache × Nat)} (hs : p.storage = .disk) (hb : buildCache env p seq root total = (r, seq')) :
    r = none ∧ seq' = seq ∨ seq' = seq + 1 := by
  have hnext : r = (buildCache env p seq root total).1 ∧ seq' = (buildCache env p seq root total).2 := by
    rw [hb]
    exact ⟨rfl, rfl⟩
  rw [hnext.1, hnext.2]
  unfold buildCache
  split
  · simp only [hs]
    split
    · split <;> exact .inr rfl
    · exact .inr rfl
  · exact .inl ⟨rfl, rfl⟩

/-- A build, with all it writes: the cache that it returns is held, and what it wrote for none is gone. -/
theorem buildCache_moves (hu : Unnested dirs) {env : BuildEnv} {p : Policy} {root : Node} {total seq' : Nat}
    {r : Option (SiteCache × Nat)} (hb : buildCache env p seq root total = (r, seq')) (hroot : Slashless root)
    (hd : p.storage = .disk → dirs p.diskCache) :
    (arena dirs sticks).Moves (Stage dirs sticks base live seq none caches)
      (Stage dirs sticks base live seq' none (caches ++ (r.map Prod.fst).toList)) := by
  cases hs : p.storage with
  | memory =>
    obtain rfl := buildCache_memory_next hs hb
    cases r with
    | some ct => exact Stage.load hu (.inr ⟨env, p, _, root, total, ct.2, _, hs, hb⟩)
    | none =>
      rw [Option.map_none, Option.toList_none, List.append_nil]
      exact .imp fun _ _ h => h
  | disk =>
    have hseq := buildCache_disk_next hs hb
    cases r with
    | some ct =>
      obtain rfl : seq' = seq + 1 := hseq.resolve_left fun h => by cases h.1
      obtain ⟨files, hdir, hinside, -⟩ := buildCache_inside hs hroot hb
      refine .trans (Stage.create hu (hd hs)) (.trans (Stage.writes hu files.pairs _ (fun f hf => ?_) files.nodup_pairs) ?_)
      · exact hinside f.1 f.2 (Map.mem_pairs.1 hf)
      · -- all that the cache records has been written
        intro v vs s hs' hQ
        obtain ⟨b, hpol, hnum, hall, -, hstage⟩ := hs'
        refine Stage.finish hu (c := ct.1) (hpol ▸ hs) hroot (by rw [hpol, hnum]; exact hb) (fun bd hbd q content hl => ?_)
          v vs s hstage hQ
        cases hdir.symm.trans hbd
        exact hall (q, content) (Map.mem_pairs.2 hl)
    | none =>
      rw [Option.map_none, Option.toList_none, List.append_nil]
      rcases hseq with ⟨-, rfl⟩ | rfl
      · exact .imp fun _ _ h => h
      · -- the directory is refused, or what was written into it goes again
        by_cases hm : env.mkdir (buildDirPath p seq) = true
        · exact .trans (Stage.create hu (hd hs)) (Stage.abort hu)
        · exact Stage.refuse hu

/-- What a machine that reads like this asks of it: every tree has names as the file system gives them. -/
def Trees (h : Nat → World) : Prop := ∀ k p, Slashless ((h k).node p)

/-- One site: its cache is the next that is held. -/
theorem buildSite_drives (hu : Unnested dirs) (ht : Trees h) {cfg : Config} (hd : cfg.storage = .disk → dirs (cfg.diskCache.getD []))
    (s : SiteConfig) (id total i : Nat) :
    Obs.Drives (arena dirs sticks) Publication.shown h (buildSite c.compressors cfg s id total seq) i
      (Stage dirs sticks base live seq none caches) fun r _ v p =>
        ∃ cs, Stage dirs sticks base live r.2 none (caches ++ cs) v p ∧ ∀ site total', r.1 = .ok (site, total') → cs = [site.cache] := by
  have hnothing : ∀ v p, Stage dirs sticks base live seq none caches v p → Stage dirs sticks base live seq none (caches ++ []) v p := by
    intro v p hs
    rwa [List.append_nil]
  unfold buildSite
  simp only
  split
  · exact .ret fun v p hs => ⟨[], hnothing v p hs, nofun⟩
  · cases s.root with
    | none =>
      refine .moves (Stage.load hu (.inl rfl)) (.ret fun v p hs => ⟨[.empty], hs, ?_⟩)
      rintro site total' ⟨⟩
      rfl
    | some r =>
      refine .view ?_
      cases (h i).canonicalize r with
      | error e => exact .ret fun v p hs => ⟨[], hnothing v p hs, nofun⟩
      | ok root =>
        refine .view ?_
        split
        · exact .ret fun v p hs => ⟨[], hnothing v p hs, nofun⟩
        · refine .view ?_
          split
          · rename_i seq' hb
            exact .moves (buildCache_moves hu hb (ht _ _) hd) (.ret fun v p hs => ⟨[], hs, nofun⟩)
          · rename_i cache total' seq' hb
            refine .moves (buildCache_moves hu hb (ht _ _) hd) (.ret fun v p hs => ⟨[cache], hs, ?_⟩)
            rintro site total'' ⟨⟩
            rfl

/-- The table so far: each of its sites has the cache at the place of its number. -/
def Placed (sites : Sites) (caches : List SiteCache) : Prop :=
  ∀ host site, sites.lookup host = some site → caches[site.id]? = some site.cache

theorem Placed.append {sites : Sites} (hp : Placed sites caches) (cs : List SiteCache) : Placed sites (caches ++ cs) := by
  intro host site hs
  have hold := hp host site hs
  rw [List.getElem?_append_left (List.getElem?_eq_some_iff.1 hold).1, hold]

theorem buildSites_drives (hu : Unnested dirs) (ht : Trees h) {cfg : Config} (hd : cfg.storage = .disk → dirs (cfg.diskCache.getD [])) :
    ∀ (todo : List SiteConfig) (sites : Sites) (caches : List SiteCache) (total seq i : Nat), Placed sites caches →
    Obs.Drives (arena dirs sticks) Publication.shown h (buildSites c.compressors cfg sites caches.length total seq todo) i
      (Stage dirs sticks base live seq none caches) fun r _ v p =>
        ∃ cs, Stage dirs sticks base live r.2 none cs v p ∧ ∀ sites', r.1 = .ok sites' → Placed sites' cs
  | [], sites, caches, total, seq, i, hp => by
    rw [buildSites]
    refine .ret fun v p hs => ⟨caches, hs, ?_⟩
    rintro sites' ⟨⟩
    exact hp
  | s :: todo, sites, caches, total, seq, i, hp => by
    rw [buildSites]
    refine (buildSite_drives hu ht hd s caches.length total i).bind fun r j hr _ => ?_
    have hfrom := (@buildSite_from Publication c.compressors cfg h s caches.length total seq i).2
    rw [← hr] at hfrom
    obtain ⟨r, seq'⟩ := r
    cases r with
    | error e =>
      refine .ret ?_
      rintro v p ⟨cs, hs, -⟩
      exact ⟨caches ++ cs, hs, fun sites' h => (error_ne_ok h).elim⟩
    | ok st =>
      obtain ⟨site, total'⟩ := st
      obtain ⟨hid, -⟩ := hfrom site total' rfl
      -- one more cache is held
      refine .moves (R := Stage dirs sticks base live seq' none (caches ++ [site.cache])) (.imp ?_) ?_
      · rintro v p ⟨cs, hs, hcs⟩
        rwa [hcs site total' rfl] at hs
      · simp only
        cases hins : insertHosts site s.hosts sites with
        | error e => exact .ret fun v p hs => ⟨_, hs, fun sites' h => (error_ne_ok h).elim⟩
        | ok sites' =>
          have hplaced : Placed sites' (caches ++ [site.cache]) := by
            intro host x hx
            rw [insertHosts_lookup hins] at hx
            split at hx
            · cases hx
              rw [hid]
              exact List.getElem?_concat_length
            · exact hp.append [site.cache] host x hx
          have hrest := buildSites_drives hu ht hd todo sites' (caches ++ [site.cache]) total' seq' j hplaced
          rwa [List.length_append, List.length_singleton] at hrest

theorem buildVhosts_drives (hu : Unnested dirs) (ht : Trees h) {cfg : Config} (hd : cfg.storage = .disk → dirs (cfg.diskCache.getD []))
    (seq i : Nat) :
    Obs.Drives (arena dirs sticks) Publication.shown h (buildVhosts c.compressors cfg seq) i
      (Stage dirs sticks base live seq none []) fun r _ v p =>
        ∃ cs, Stage dirs sticks base live r.2 none cs v p ∧ ∀ vhosts, r.1 = .ok vhosts → Placed vhosts.sites cs := by
  unfold buildVhosts
  refine (buildSites_drives hu ht hd cfg.sites ∅ [] _ seq i ?_).bind fun r j _ _ => ?_
  · intro host site hs
    simp at hs
  · obtain ⟨r, seq'⟩ := r
    cases r with
    | error e => exact .ret fun v p ⟨cs, hs, _⟩ => ⟨cs, hs, nofun⟩
    | ok sites =>
      refine .ret fun v p ⟨cs, hs, hcs⟩ => ⟨cs, hs, ?_⟩
      rintro vhosts ⟨⟩
      exact hcs sites rfl

/-- A built runtime: certificates are read first, and share nothing. -/
theorem buildRuntime_drives (hu : Unnested dirs) (ht : Trees h) {cfg : Config} (hd : cfg.storage = .disk → dirs (cfg.diskCache.getD []))
    (seq i : Nat) :
    Obs.Drives (arena dirs sticks) Publication.shown h (buildRuntime c cfg seq) i
      (Stage dirs sticks base live seq none []) fun r _ v p =>
        ∃ cs, Stage dirs sticks base live r.2 none cs v p ∧ ∀ rt, r.1 = .ok rt → Placed rt.vhosts.sites cs := by
  unfold buildRuntime
  refine (Obs.Drives.silent (buildTls_names i)).bind fun tls j _ _ => ?_
  cases tls with
  | error e => exact .ret fun v p ⟨_, hs⟩ => ⟨[], hs, nofun⟩
  | ok tls =>
    refine .moves (.imp fun v p hs => hs.2) ((buildVhosts_drives hu ht hd seq j).bind fun r k _ _ => ?_)
    obtain ⟨r, seq'⟩ := r
    cases r with
    | error e => exact .ret fun v p ⟨cs, hs, _⟩ => ⟨cs, hs, nofun⟩
    | ok vhosts =>
      refine .ret fun v p ⟨cs, hs, hcs⟩ => ⟨cs, hs, ?_⟩
      rintro rt ⟨⟩
      exact hcs vhosts rfl

/-! ## Tables -/

theorem picks_get {α : Type} {l : List α} : ∀ {places : List Nat}, (∀ i ∈ places, i < l.length) → ∀ k : Nat,
    (picks l places)[k]? = places[k]?.bind (l[·]?)
  | [], _, k => by simp [picks]
  | i :: places, hlt, k => by
    obtain ⟨a, ha⟩ : ∃ a, l[i]? = some a := ⟨_, List.getElem?_eq_getElem (hlt i List.mem_cons_self)⟩
    rw [picks, List.filterMap_cons, ha]
    cases k with
    | zero => simp [ha]
    | succ k =>
      rw [List.getElem?_cons_succ, List.getElem?_cons_succ]
      exact picks_get (fun j hj => hlt j (List.mem_cons_of_mem _ hj)) k

theorem Placed.below {v : Vhosts} (hp : Placed v.sites caches) : ∀ i ∈ v.ids, i < caches.length := by
  intro i hi
  obtain ⟨site, hsite, rfl⟩ := List.mem_map.1 (List.mem_dedup.1 hi)
  obtain ⟨host, hs⟩ := Map.mem_values.1 hsite
  exact (List.getElem?_eq_some_iff.1 (hp host site hs)).1

/-- The caches of a built table, one for each of its sites. -/
theorem Placed.fits {v : Vhosts} (hp : Placed v.sites caches) : Fits v (picks caches v.ids) := by
  have hlen : (picks caches v.ids).length = v.ids.length := by
    have hsome : ∀ k : Nat, ((picks caches v.ids)[k]?).isSome = (v.ids[k]?).isSome := by
      intro k
      rw [picks_get hp.below]
      cases hk : v.ids[k]? with
      | none => rfl
      | some i => rw [Option.bind_some, List.getElem?_eq_getElem (hp.below i (List.mem_of_getElem? hk))]; rfl
    refine Nat.le_antisymm ?_ ?_ <;> refine Nat.le_of_not_lt fun hlt => ?_
    · have := hsome v.ids.length
      rw [List.getElem?_eq_getElem hlt, List.getElem?_eq_none le_rfl] at this
      cases this
    · have := hsome (picks caches v.ids).length
      rw [List.getElem?_eq_none le_rfl, List.getElem?_eq_getElem hlt] at this
      cases this
  refine ⟨hlen, fun host site hs => ?_⟩
  have hmem : site.id ∈ v.ids := List.mem_dedup.2 (List.mem_map_of_mem (Map.mem_values.2 ⟨host, hs⟩))
  rw [picks_get hp.below, Vhosts.slot, List.getElem?_idxOf hmem, Option.bind_some]
  exact hp host site hs

/-- The directories that a table's sites build into are among these. -/
def Vhosts.Within (v : Vhosts) (dirs : Path → Prop) : Prop :=
  ∀ host site, v.sites.lookup host = some site → site.policy.storage = .disk → dirs site.policy.diskCache

theorem RuntimeFrom.within {cfg : Config} {rt : Runtime} (hr : RuntimeFrom c cfg rt)
    (hd : cfg.storage = .disk → dirs (cfg.diskCache.getD [])) : rt.vhosts.Within dirs := by
  intro host site hs hdisk
  obtain ⟨s, -, -, hfrom⟩ := hr.vhosts.sites.site host site hs
  rw [hfrom.policy] at hdisk ⊢
  exact hd hdisk

end

/-! ## The watcher -/

/-- Every config that can be loaded names one of these directories. -/
def Disks (dirs : Path → Prop) (h : Nat → World) (path : Str) : Prop :=
  ∀ k cfg, (h k).load path = .ok cfg → cfg.cfg.storage = .disk → dirs (cfg.cfg.diskCache.getD [])

/-- The watcher between two accesses: what is live is its live runtime, and nothing is being built. -/
structure Running (dirs : Path → Prop) (sticks : Path → Bool) (base : Disk) (path : Str) (w : Watcher) (v : Option Runtime)
    (p : Process) : Prop where
  path : w.configPath = path
  within : w.live.runtime.vhosts.Within dirs
  stage : Stage dirs sticks base (some w.live.runtime) w.buildSeq none [] v p

namespace Running

variable {w w' : Watcher}

/-- A change of what only the watcher reads. -/
theorem core {u : Watcher} {v : Option Runtime} {p : Process} (hr : Running dirs sticks base path w v p)
    (hpath : u.configPath = w.configPath) (hlive : u.live = w.live) (hseq : u.buildSeq = w.buildSeq) :
    Running dirs sticks base path u v p := by
  refine ⟨hpath.trans hr.path, ?_, ?_⟩
  · rw [hlive]
    exact hr.within
  · rw [hlive, hseq]
    exact hr.stage

/-- What is shown of the path and the directories holds of the watcher, whatever the state. -/
theorem drives {α : Type} {i : Nat} {prog : Watch α} {Q : α → Nat → Option Runtime → Process → Prop}
    (hp : w.configPath = path → w.live.runtime.vhosts.Within dirs → Obs.Drives (arena dirs sticks) Publication.shown h prog i
      (Stage dirs sticks base (some w.live.runtime) w.buildSeq none []) Q) :
    Obs.Drives (arena dirs sticks) Publication.shown h prog i (Running dirs sticks base path w) Q :=
  fun v vs s hr => hp hr.path hr.within v vs s hr.stage

theorem of_core {v : Option Runtime} {p : Process} (hr : Running dirs sticks base path w v p) (hc : SameCore w w') :
    Running dirs sticks base path w' v p := hr.core hc.configPath hc.live hc.buildSeq

end Running

/-- The full-reload arm. -/
theorem reload_drives (hu : Unnested dirs) (ht : Trees h) (hd : Disks dirs h path) (w : Watcher) (cfgNow tlsNow : UInt64) (i : Nat) :
    Obs.Drives (arena dirs sticks) Publication.shown h (reload c w cfgNow tlsNow) i (Running dirs sticks base path w)
      fun a _ => Running dirs sticks base path a.watcher := by
  refine Running.drives fun hpath hwithin => ?_
  unfold reload loadConfig
  refine .view ?_
  cases hload : (h i).load w.configPath with
  | error e => exact .ret fun v p hs => ⟨hpath, hwithin, hs⟩
  | ok cfg =>
    have hdisk := hd i cfg (hpath ▸ hload)
    refine (Obs.Drives.silent (sample_silent w.configPath cfg.cfg (i + 1))).bind fun sampled j _ _ =>
      .moves (.imp fun v p hs => hs.2) ((buildRuntime_drives hu ht hdisk w.buildSeq j).bind fun r k hr _ => ?_)
    have hfrom := (@buildRuntime_from Publication cfg.cfg h c w.buildSeq j).2
    rw [← hr] at hfrom
    obtain ⟨r, seq⟩ := r
    cases r with
    | error e =>
      -- what had been built goes
      refine .exists_pre fun cs => .fact fun _ => .moves (Stage.discard hu List.nodup_nil nofun) ?_
      exact .ret fun v p hs => ⟨hpath, hwithin, hs⟩
    | ok rt =>
      refine .exists_pre fun cs => .fact fun hcs => .view ?_
      have hplaced : Placed rt.vhosts.sites cs := hcs rt rfl
      refine (Obs.Drives.silent (seedTrees_silent sampled.trees _ (∅, ∅) _)).bind fun maps l _ _ =>
        .moves (.imp fun v p hs => hs.2) ?_
      obtain ⟨applied, last⟩ := maps
      -- caches of blocks without a host are in no table
      refine .moves (Stage.discard hu (List.nodup_dedup _) hplaced.below) (.turn (Stage.reload hu hplaced.fits) ?_)
      refine (Obs.Drives.silent (tlsSignatureOf_silent _ _)).bind fun t m _ _ => .ret fun v p hs => ?_
      obtain ⟨-, rfl, hs⟩ := hs
      exact ⟨hpath, (hfrom rt rfl).within hdisk, hs⟩

/-- The certificate-only arm. -/
theorem reloadTls_drives (hu : Unnested dirs) (w : Watcher) (tlsNow : UInt64) (i : Nat) :
    Obs.Drives (arena dirs sticks) Publication.shown h (reloadTls c w tlsNow) i (Running dirs sticks base path w)
      fun a _ => Running dirs sticks base path a.watcher := by
  refine Running.drives fun hpath hwithin => ?_
  unfold reloadTls loadConfig
  refine .view ?_
  cases (h i).load w.configPath with
  | error e => exact .ret fun v p hs => ⟨hpath, hwithin, hs⟩
  | ok cfg =>
    refine (Obs.Drives.silent (buildTls_names (i + 1))).bind fun r j _ _ => ?_
    cases r with
    | error e => exact .ret fun v p hs => ⟨hpath, hwithin, hs.2⟩
    | ok tls =>
      refine .turn (Arena.Moves.turns (.imp fun v p hs => hs.2) (Stage.renew hu tls)) (.ret fun v p hs => ?_)
      obtain ⟨rfl, hs⟩ := hs
      exact ⟨hpath, hwithin, hs⟩

/-- The first part of a tick. -/
theorem applyInputs_drives (hu : Unnested dirs) (ht : Trees h) (hd : Disks dirs h path) (w : Watcher) (r : Readings) (i : Nat) :
    Obs.Drives (arena dirs sticks) Publication.shown h (applyInputs c w r) i (Running dirs sticks base path w)
      fun a _ => Running dirs sticks base path a.watcher := by
  have hcore := resetBackoff_core w r.cfgNow r.tlsNow
  have hstart : ∀ v p, Running dirs sticks base path w v p → Running dirs sticks base path (resetBackoff w r.cfgNow r.tlsNow) v p :=
    fun v p hr => hr.of_core hcore
  unfold applyInputs
  simp only
  split
  · refine .moves (.imp hstart) (Obs.Drives.bind (Q := fun a _ => Running dirs sticks base path a.watcher) ?_ fun a j _ _ => ?_)
    · unfold takeArm
      split
      · exact reload_drives hu ht hd _ _ _ _
      · split
        · exact reloadTls_drives hu _ _ _
        · exact .ret fun v p hr => hr
    · -- listeners and retries share nothing
      refine (Obs.Drives.silent (reconcile_core a j)).bind fun b k _ _ => ?_
      refine (Obs.Drives.silent (settle_core r.cfgNow b k)).post fun d l v p hs => ?_
      obtain ⟨⟨hd, -⟩, ⟨hb, -⟩, hr⟩ := hs
      exact hr.of_core (hb.trans hd)
  · exact .ret hstart

/-! ## Content -/

/-- A site that the scan goes through is one of the live table, whatever caches have been rebuilt since. -/
def Scanned (dirs : Path → Prop) (w : Watcher) (t : Site × Path × Str) : Prop :=
  t.1.id ∈ w.live.runtime.vhosts.ids ∧ (t.1.policy.storage = .disk → dirs t.1.policy.diskCache)

theorem ids_setCache (v : Vhosts) (id : Nat) (cache : SiteCache) :
    Vhosts.ids { v with sites := v.sites.setCache id cache } = v.ids := by
  have hid : ∀ s : Site, (if s.id == id then { s with cache } else s).id = s.id := by
    intro s
    split <;> rfl
  simp only [Vhosts.ids, Sites.setCache, Map.values_mapVal, List.map_map, Function.comp_def, hid]

theorem Vhosts.Within.setCache {v : Vhosts} (hw : v.Within dirs) (id : Nat) (cache : SiteCache) :
    Vhosts.Within { v with sites := v.sites.setCache id cache } dirs := by
  intro host site hs hdisk
  simp only [Sites.setCache, Map.lookup_mapVal, Option.map_eq_some_iff] at hs
  obtain ⟨y, hy, rfl⟩ := hs
  have hpolicy : (if y.id == id then { y with cache } else y).policy = y.policy := by split <;> rfl
  rw [hpolicy] at hdisk ⊢
  exact hw host y hy hdisk

/-- One site of the content scan: the sites after it are scanned as before. -/
theorem scanSite_drives (hu : Unnested dirs) (ht : Trees h) (sigs : Map Str UInt64) (targets : List (Site × Path × Str))
    (w : Watcher) {t : Site × Path × Str} (hmem : t ∈ targets) (i : Nat) :
    Obs.Drives (arena dirs sticks) Publication.shown h (scanSite c sigs targets w t) i
      (fun v p => Running dirs sticks base path w v p ∧ ∀ u ∈ targets, Scanned dirs w u) fun w' _ v p =>
        Running dirs sticks base path w' v p ∧ ∀ u ∈ targets, Scanned dirs w' u := by
  refine .fact fun hscan => Running.drives fun hpath hwithin => ?_
  obtain ⟨hid, hdisk⟩ := hscan t hmem
  obtain ⟨site, root, host⟩ := t
  unfold scanSite
  simp only
  split
  · refine .view ?_
    split
    · rename_i cache total seq hb
      refine .moves (buildCache_moves hu hb (ht _ _) hdisk) (.turn (Stage.swap hu hid) (.ret fun v p hs => ?_))
      obtain ⟨rfl, hs⟩ := hs
      refine ⟨⟨hpath, hwithin.setCache _ _, hs⟩, fun u hmem' => ⟨?_, (hscan u hmem').2⟩⟩
      exact (ids_setCache w.live.runtime.vhosts site.id cache).symm ▸ (hscan u hmem').1
    · rename_i seq hb
      exact .moves (buildCache_moves hu hb (ht _ _) hdisk) (.ret fun v p hs => ⟨⟨hpath, hwithin, hs⟩, hscan⟩)
  · exact .ret fun v p hs => ⟨⟨hpath, hwithin, hs⟩, hscan⟩

theorem scan_drives (hu : Unnested dirs) (ht : Trees h) (w : Watcher) (i : Nat) :
    Obs.Drives (arena dirs sticks) Publication.shown h (scan c w) i (Running dirs sticks base path w)
      fun w' _ => Running dirs sticks base path w' := by
  unfold scan
  refine .view ?_
  simp only
  generalize hgen : orderTargets (h i).order (scanTargets (iter w.live.runtime.vhosts.sites (h i).order)) = targets
  refine (Obs.Drives.silent (hashTargets_silent targets)).bind fun sigs j _ _ => ?_
  -- every target is a site of the live table
  have htargets : w.live.runtime.vhosts.Within dirs → ∀ t ∈ targets, Scanned dirs w t := by
    intro hwithin t hmem
    rw [← hgen] at hmem
    obtain ⟨-, host, hh⟩ := (scanTargets_covers _).root t (mem_orderTargets hmem)
    have hlookup := mem_iter.1 hh
    exact ⟨List.mem_dedup.2 (List.mem_map_of_mem (Map.mem_values.2 ⟨host, hlookup⟩)), hwithin host t.1 hlookup⟩
  refine .moves (R := fun v p => Running dirs sticks base path w v p ∧ ∀ t ∈ targets, Scanned dirs w t)
    (.imp fun v p hs => ⟨hs.2, htargets hs.2.within⟩) ?_
  refine (Obs.Drives.fold (P := fun _ w' v p => Running dirs sticks base path w' v p ∧ ∀ t ∈ targets, Scanned dirs w' t)
    (fun done t rest hdone w' k => ?_) w j).post fun w' k v p hs => hs.1
  exact scanSite_drives hu ht sigs targets w' (by rw [hdone]; simp) k

/-! ## Runs -/

/-- One round of the watcher. -/
theorem tick_drives (hu : Unnested dirs) (ht : Trees h) (hd : Disks dirs h path) (w : Watcher) (i : Nat) :
    Obs.Drives (arena dirs sticks) Publication.shown h (tick c w) i (Running dirs sticks base path w)
      fun w' _ => Running dirs sticks base path w' := by
  unfold tick
  refine (Obs.Drives.silent (readInputs_silent w i)).bind fun r j _ _ => .moves (.imp fun v p hs => hs.2) ?_
  refine (applyInputs_drives hu ht hd w r j).bind fun a k _ _ => .again (fun v p hr => hr.stage.shown) ?_
  refine .moves (.imp fun v p hr => hr.core (u := { a.watcher with cfgLast := r.cfgNow, tlsLast := a.tlsNow, linksLast := r.linksNow })
    rfl rfl rfl) ?_
  refine (scan_drives hu ht _ _).bind fun w' l _ _ => .again (fun v p hr => hr.stage.shown) (.ret fun v p hr => hr)

/-- The opening of `watch`: the runtime that was built goes live. -/
theorem watchInit_drives (hu : Unnested dirs) {s : Sampled} {rt : Runtime} {cfg : Loaded} {https : ListenerCtl}
    {http : Option ListenerCtl} {loops : Loops} {seq : Nat} {caches : List SiteCache} (hplaced : Placed rt.vhosts.sites caches)
    (hwithin : rt.vhosts.Within dirs) (i : Nat) :
    Obs.Drives (arena dirs sticks) Publication.shown h (watchInit path s rt cfg https http loops seq) i
      (Stage dirs sticks base none seq none caches) fun w _ => Running dirs sticks base path w := by
  unfold watchInit fileSignatureOf
  refine .view ?_
  refine (Obs.Drives.silent (rootLinksOf_silent path _)).bind fun links j _ _ => ?_
  refine (Obs.Drives.silent (tlsSignatureOf_silent s.tlsFiles j)).bind fun tls k _ _ => ?_
  refine .view ?_
  refine (Obs.Drives.silent (freshTrees_silent _)).bind fun last l _ _ => ?_
  simp only
  refine .moves (.trans (.imp fun v p hs => hs.2.2.2) (Stage.discard hu (List.nodup_dedup _) hplaced.below))
    (.turn (Stage.boot hu hplaced.fits) (.ret fun v p hs => ?_))
  obtain ⟨rfl, hs⟩ := hs
  exact ⟨rfl, hwithin, hs⟩

theorem startHttp_silent (loops : Loops) (cfg : Config) (i : Nat) :
    Obs.Holds h (fun _ _ => False) (startHttp loops cfg) i fun _ _ => True := by
  unfold startHttp
  cases (wantedAddrs cfg).2 with
  | none =>
    rw [Obs.holds_pure]
    trivial
  | some addr =>
    rw [Obs.holds_bind]
    refine startListener_holds (fun e _ => ?_) fun _ => ?_ <;>
      · rw [Obs.holds_pure]
        trivial

/-- Nothing is being built. -/
def Resting (dirs : Path → Prop) (sticks : Path → Bool) (base : Disk) (v : Option Runtime) (p : Process) : Prop :=
  ∃ live seq caches, Stage dirs sticks base live seq none caches v p

theorem Resting.stable (hu : Unnested dirs) : (arena dirs sticks).Stable (Resting dirs sticks base) :=
  ⟨fun _ _ ⟨_, _, _, hs⟩ => hs.serving, fun v p p' ⟨live, seq, caches, hs⟩ h => ⟨live, seq, caches, (Stage.stable hu).kept v p p' hs h⟩⟩

theorem Running.resting {w : Watcher} {v : Option Runtime} {p : Process} (hr : Running dirs sticks base path w v p) :
    Resting dirs sticks base v p := ⟨_, _, _, hr.stage⟩

/-- A boot: it exits with nothing live, or ends with its runtime live. -/
theorem boot_drives (hu : Unnested dirs) (ht : Trees h) (hd : Disks dirs h path) (i : Nat) :
    Obs.Drives (arena dirs sticks) Publication.shown h (boot c path) i (Stage dirs sticks base none 0 none [])
      fun x _ v p => Resting dirs sticks base v p ∧ ∀ w, x = .ok w → Running dirs sticks base path w v p := by
  have hexit : ∀ {seq : Nat} {cs : List SiteCache} {e : Str} (v : Option Runtime) (p : Process),
      Stage dirs sticks base none seq none cs v p → Resting dirs sticks base v p ∧
        ∀ w, Except.error e = Except.ok w → Running dirs sticks base path w v p :=
    fun v p hs => ⟨⟨_, _, _, hs⟩, fun w h => (error_ne_ok h).elim⟩
  unfold boot loadConfig
  refine .view ?_
  cases hload : (h i).load path with
  | error e => exact .ret fun v p hs => hexit v p hs
  | ok cfg =>
    have hdisk := hd i cfg hload
    refine .view ?_
    split
    · exact .ret fun v p hs => hexit v p hs
    · refine (Obs.Drives.silent (sample_silent path cfg.cfg _)).bind fun s j _ _ =>
        .moves (.imp fun v p hs => hs.2) ((buildRuntime_drives hu ht hdisk 0 j).bind fun r k hr _ => ?_)
      have hfrom := (@buildRuntime_from Publication cfg.cfg h c 0 j).2
      rw [← hr] at hfrom
      obtain ⟨r, seq⟩ := r
      cases r with
      | error e => exact .ret fun v p ⟨cs, hs, _⟩ => hexit v p hs
      | ok rt =>
        refine .exists_pre fun cs => .fact fun hcs => ?_
        have hplaced : Placed rt.vhosts.sites cs := hcs rt rfl
        -- the listeners share nothing
        refine (Obs.Drives.silent (F := fun _ _ => True) (startListener_holds (fun _ _ => trivial) fun _ => trivial)).bind
          fun x l _ _ => .moves (.imp fun v p hs => hs.2) ?_
        cases x with
        | error e => exact .ret fun v p hs => hexit v p hs
        | ok x =>
          obtain ⟨ctl, loops⟩ := x
          refine (Obs.Drives.silent (startHttp_silent loops cfg.cfg l)).bind fun x m _ _ => .moves (.imp fun v p hs => hs.2) ?_
          cases x with
          | error e => exact .ret fun v p hs => hexit v p hs
          | ok x =>
            obtain ⟨http, loops⟩ := x
            refine (watchInit_drives hu hplaced ((hfrom rt rfl).within hdisk) m).bind fun w n _ _ => .ret fun v p hr => ?_
            refine ⟨hr.resting, ?_⟩
            rintro w' ⟨⟩
            exact hr

/-- Whatever files, clocks and sockets give while it runs, and whatever the workers do between any two of its
accesses: the watcher's shared accesses can be taken one after the other, and at every moment what the shared state
holds live is the runtime of its last publication. -/
theorem process_realised (hu : Unnested dirs) (ht : Trees h) (hd : Disks dirs h path) (n : Nat) :
    (arena dirs sticks).Realises none (((process c path n).run h 0).trace.map fun e => e.2.shown) ⟨.start base, []⟩ := by
  refine Obs.Drives.realises (P := Stage dirs sticks base none 0 none []) (Q := fun _ _ => Resting dirs sticks base) ?_
    (fun _ _ => Resting.stable hu) (Stage.start base)
  unfold process
  refine (boot_drives hu ht hd 0).bind fun x j _ _ => ?_
  cases x with
  | error e => exact .ret fun v p hs => hs.1
  | ok w =>
    refine .moves (.imp fun v p hs => hs.2 w rfl) ?_
    refine (Obs.Drives.repeatN (P := Running dirs sticks base path) (fun w i => tick_drives hu ht hd w i) n w j).bind
      fun w' k _ _ => .ret fun v p hr => hr.resting

/-- A site on disk whose page is edited at a time 30. -/
def storedEdit (k : Nat) : World :=
  { World.rootedAt (if k < 30 then oneFile 1 (some [65]) else oneFile 2 (some [65, 66])) with
    info := (World.small (storedConf (str "1M")) 1 1).info
    text := (World.small (storedConf (str "1M")) 1 1).text
    openFile := (World.small (storedConf (str "1M")) 1 1).openFile }

/-- The snapshot of the edited page takes the place of the first one. -/
theorem process_realised_storedEdit : ((process anyPem confPath 2).run storedEdit 0).trace.length = 6 ∧
    (arena (· = str "/d") fun _ => false).Realises none
      (((process anyPem confPath 2).run storedEdit 0).trace.map fun e => e.2.shown) ⟨.start fun _ => none, []⟩ := by
  have hdir : (parseConfig (storedConf (str "1M"))).toOption.all (fun cfg => cfg.diskCache.getD [] == str "/d") = true := by
    decide +kernel
  have hfile : ∀ size data, Slashless (oneFile size data) := by
    intro size data
    refine .dir (fun e he => ?_) fun e he => .leaf fun entries h => ?_
    · rw [List.mem_singleton.1 he]
      exact ⟨List.cons_ne_nil _ _, show (47 : UInt8) ∉ str "a" by decide⟩
    · rw [List.mem_singleton.1 he] at h
      cases h
  have htrees : Trees storedEdit := by
    intro k p
    simp only [storedEdit]
    split <;> exact hfile _ _
  have hdisks : Disks (· = str "/d") storedEdit confPath := by
    intro k cfg hload _
    have htext : Except.ok (storedConf (str "1M")) = Except.ok cfg.text := World.load_text hload
    have hparsed := cfg.parsed
    rw [← Except.ok.inj htext] at hparsed
    rw [hparsed] at hdir
    exact beq_iff_eq.1 hdir
  exact ⟨by decide +kernel, process_realised (unnested_single _) htrees hdisks 2⟩

end BareServer
