/-
What a build of the runtime gives, whatever the world does while it runs: a host table and a
resolver for exactly the hosts of the config, each site with its block's settings and a cache built
under its policy.
-/
import BareServer.Watch.Build

namespace BareServer

open BareServer.Lib

/-! ## Virtual hosts -/

/-- A live site is that of a config block: its settings, and a cache built under its policy, or none
when it only redirects. -/
structure SiteFrom (c : Compressors) (cfg : Config) (s : SiteConfig) (site : Site) : Prop where
  forceSsl : site.forceSsl = s.forceSsl
  canonicalUrls : site.canonicalUrls = s.canonicalUrls
  redirects : site.redirects = s.redirects
  policy : site.policy = sitePolicy cfg s
  cache : site.cache = .empty ∨ ∃ env seq node total total' seq', env.compressors = c ∧
    buildCache env (sitePolicy cfg s) seq node total = (some (site.cache, total'), seq')

/-- A table holds for each of these blocks one site that stands in a relation to it, under the block's hosts,
and nothing else; sites of one identity are one. -/
structure TableOf (S : SiteConfig → Site → Prop) (blocks : List SiteConfig) (sites : Sites) : Prop where
  site : ∀ host site, sites.lookup host = some site → ∃ s ∈ blocks, host ∈ s.hosts ∧ S s site
  hosts : ∀ s ∈ blocks, ∃ site, ∀ host ∈ s.hosts, sites.lookup host = some site
  same : ∀ host host' site site', sites.lookup host = some site → sites.lookup host' = some site' →
    site.id = site'.id → site = site'
  below : ∀ host site, sites.lookup host = some site → site.id < blocks.length

/-- A table holds the sites of these blocks under their hosts, and nothing else. -/
structure SitesFrom (c : Compressors) (cfg : Config) (blocks : List SiteConfig) (sites : Sites) : Prop where
  site : ∀ host site, sites.lookup host = some site → ∃ s ∈ blocks, host ∈ s.hosts ∧ SiteFrom c cfg s site
  hosts : ∀ s ∈ blocks, ∀ host ∈ s.hosts, (sites.lookup host).isSome

/-- A host table built from a config. -/
structure VhostsFrom (c : Compressors) (cfg : Config) (v : Vhosts) : Prop where
  sites : SitesFrom c cfg cfg.sites v.sites
  httpsPort : v.httpsPort = cfg.port
  httpPort : v.httpPort = cfg.httpPort
  errors : v.errors = ErrorPages.new cfg.headers.render

section

variable {E : Type} {c : Compressors} {cfg : Config} {h : Nat → World}

theorem buildSite_from (s : SiteConfig) (id total seq i : Nat) :
    Obs.Holds h (fun _ _ => False) (buildSite c cfg s id total seq : Look E _) i
      fun r _ => ∀ site total', r.1 = .ok (site, total') → site.id = id ∧ SiteFrom c cfg s site := by
  unfold buildSite
  simp only
  split
  · simp
  · cases s.root with
    | none =>
      rw [Obs.holds_pure]
      rintro site total' h
      cases h
      exact ⟨rfl, rfl, rfl, rfl, rfl, .inl rfl⟩
    | some r =>
      simp only [Obs.holds_bind, Obs.holds_view]
      cases (h i).canonicalize r with
      | error e => simp
      | ok root =>
        simp only [Obs.holds_bind, Obs.holds_view]
        split
        · simp
        · simp only [Obs.holds_bind, Obs.holds_view]
          split
          · simp
          · rename_i cache total' seq' hb
            rw [Obs.holds_pure]
            rintro site total'' h
            cases h
            exact ⟨rfl, rfl, rfl, rfl, rfl, .inr ⟨_, _, _, _, _, _, rfl, hb⟩⟩

theorem insertHosts_lookup {site : Site} : ∀ {hosts : List Str} {sites sites' : Sites},
    insertHosts site hosts sites = .ok sites' → ∀ host,
    sites'.lookup host = if host ∈ hosts then some site else sites.lookup host
  | [], _, _, h, host => by cases h; simp
  | k :: hosts, sites, sites', h, host => by
    unfold insertHosts at h
    split at h
    · cases h
    · rw [insertHosts_lookup h host, Map.lookup_insert']
      by_cases hk : host = k <;> by_cases hm : host ∈ hosts <;> simp [hk, hm]

/-- A host that has a site already cannot be entered again. -/
theorem insertHosts_fresh {site : Site} : ∀ {hosts : List Str} {sites sites' : Sites},
    insertHosts site hosts sites = .ok sites' → ∀ host ∈ hosts, sites.lookup host = none
  | k :: hosts, sites, sites', h, host, hmem => by
    unfold insertHosts at h
    split at h
    · cases h
    · rename_i hk
      rcases List.mem_cons.1 hmem with rfl | htail
      · exact Option.not_isSome_iff_eq_none.1 hk
      · have hnone := insertHosts_fresh h host htail
        rw [Map.lookup_insert'] at hnone
        split at hnone
        · cases hnone
        · exact hnone

theorem TableOf.mono {S R : SiteConfig → Site → Prop} {blocks : List SiteConfig} {sites : Sites}
    (ht : TableOf S blocks sites) (hSR : ∀ s site, S s site → R s site) : TableOf R blocks sites := by
  refine ⟨fun host site hs => ?_, ht.hosts, ht.same, ht.below⟩
  obtain ⟨s, hs, hh, hS⟩ := ht.site host site hs
  exact ⟨s, hs, hh, hSR _ _ hS⟩

/-- One more block: a fresh site under its hosts. -/
theorem TableOf.insertHosts {S : SiteConfig → Site → Prop} {done : List SiteConfig} {sites sites' : Sites} {site : Site}
    {s : SiteConfig} (ht : TableOf S done sites) (hid : site.id = done.length) (hS : S s site)
    (hins : insertHosts site s.hosts sites = .ok sites') : TableOf S (done ++ [s]) sites' := by
  have hlook := insertHosts_lookup hins
  -- an entry of the new table is the new site or an entry of the old one
  have hcases : ∀ host x, sites'.lookup host = some x → host ∈ s.hosts ∧ x = site ∨ sites.lookup host = some x := by
    intro host x hx
    rw [hlook] at hx
    split at hx
    · rename_i hh
      exact .inl ⟨hh, (Option.some.inj hx).symm⟩
    · exact .inr hx
  constructor
  · intro host x hx
    rcases hcases host x hx with ⟨hh, rfl⟩ | hold
    · exact ⟨s, by simp, hh, hS⟩
    · obtain ⟨b, hb, hrest⟩ := ht.site host x hold
      exact ⟨b, List.mem_append_left _ hb, hrest⟩
  · intro b hb
    rcases List.mem_append.1 hb with hb | hb
    · obtain ⟨x, hx⟩ := ht.hosts b hb
      refine ⟨x, fun host hh => ?_⟩
      have hold := hx host hh
      rw [hlook, if_neg, hold]
      intro hnew
      rw [insertHosts_fresh hins host hnew] at hold
      cases hold
    · refine ⟨site, fun host hh => ?_⟩
      rw [List.mem_singleton.1 hb] at hh
      rw [hlook, if_pos hh]
  · intro host host' x x' hx hx' heq
    rcases hcases host x hx with ⟨-, rfl⟩ | hold <;> rcases hcases host' x' hx' with ⟨-, rfl⟩ | hold'
    · rfl
    · have := ht.below host' x' hold'
      omega
    · have := ht.below host x hold
      omega
    · exact ht.same host host' x x' hold hold' heq
  · intro host x hx
    rw [List.length_append, List.length_singleton]
    rcases hcases host x hx with ⟨-, rfl⟩ | hold
    · omega
    · have := ht.below host x hold
      omega

/-- The loop over the blocks: what every single build gives, the table holds of all its sites. -/
theorem buildSites_table {S : SiteConfig → Site → Nat → Prop} {a : Nat}
    (later : ∀ s site j k, S s site j → j ≤ k → S s site k)
    (one : ∀ s id total seq j, a ≤ j → Obs.Holds h (fun _ _ => False) (buildSite c cfg s id total seq : Look E _) j
      fun r k => ∀ site total', r.1 = .ok (site, total') → site.id = id ∧ S s site k) :
    ∀ (todo done : List SiteConfig) (sites : Sites) (total seq i : Nat), a ≤ i → TableOf (S · · i) done sites →
    Obs.Holds h (fun _ _ => False) (buildSites c cfg sites done.length total seq todo : Look E _) i
      fun r j => ∀ v, r.1 = .ok v → TableOf (S · · j) (done ++ todo) v
  | [], done, sites, total, seq, i, _, hd => by
    rw [buildSites, Obs.holds_pure]
    rintro v ⟨⟩
    rwa [List.append_nil]
  | s :: todo, done, sites, total, seq, i, hi, hd => by
    rw [buildSites]
    refine (one s done.length total seq i hi).moments.bind fun r j hr => ?_
    obtain ⟨r, seq'⟩ := r
    obtain ⟨hr, hij⟩ := hr
    cases r with
    | error e => simp
    | ok st =>
      obtain ⟨site, total'⟩ := st
      obtain ⟨hid, hS⟩ := hr site total' rfl
      simp only
      cases hins : insertHosts site s.hosts sites with
      | error e => simp
      | ok sites' =>
        have hdone : TableOf (S · · j) (done ++ [s]) sites' :=
          (hd.mono fun s site hS => later s site i j hS hij).insertHosts hid hS hins
        have hrest := buildSites_table later one todo (done ++ [s]) sites' total' seq' j (hi.trans hij) hdone
        rwa [List.length_append, List.length_singleton, List.append_assoc] at hrest

theorem TableOf.empty (S : SiteConfig → Site → Prop) : TableOf S [] ∅ := by
  constructor <;> simp

/-- A host table: its sites, and the settings of its config. -/
theorem buildVhosts_table {S : SiteConfig → Site → Nat → Prop} {i : Nat}
    (later : ∀ s site j k, S s site j → j ≤ k → S s site k)
    (one : ∀ s id total seq j, i ≤ j → Obs.Holds h (fun _ _ => False) (buildSite c cfg s id total seq : Look E _) j
      fun r k => ∀ site total', r.1 = .ok (site, total') → site.id = id ∧ S s site k) (seq : Nat) :
    Obs.Holds h (fun _ _ => False) (buildVhosts c cfg seq : Look E _) i fun r j => ∀ v, r.1 = .ok v →
      TableOf (S · · j) cfg.sites v.sites ∧ v.httpsPort = cfg.port ∧ v.httpPort = cfg.httpPort ∧
        v.errors = ErrorPages.new cfg.headers.render := by
  unfold buildVhosts
  simp only
  refine (buildSites_table later one cfg.sites [] ∅ _ seq i le_rfl (.empty _)).bind fun r j hr => ?_
  obtain ⟨r, seq'⟩ := r
  cases r with
  | error e => simp
  | ok sites =>
    rw [Obs.holds_pure]
    rintro v ⟨⟩
    exact ⟨hr sites rfl, rfl, rfl, rfl⟩

/-- Whatever happens to the files while it is built, a host table is that of its config. -/
theorem buildVhosts_from (seq i : Nat) :
    Obs.Holds h (fun _ _ => False) (buildVhosts c cfg seq : Look E _) i
      fun r _ => ∀ v, r.1 = .ok v → VhostsFrom c cfg v := by
  refine (buildVhosts_table (S := fun s site _ => SiteFrom c cfg s site) (fun _ _ _ _ hS _ => hS)
    (fun s id total seq j _ => buildSite_from s id total seq j) seq).post fun r j hr v hv => ?_
  obtain ⟨ht, hhttps, hhttp, herrors⟩ := hr v hv
  refine ⟨⟨ht.site, fun s hs host hh => ?_⟩, hhttps, hhttp, herrors⟩
  obtain ⟨site, hsite⟩ := ht.hosts s hs
  rw [hsite host hh]
  rfl

/-! ## TLS -/

/-- A resolver knows exactly the hosts of these blocks. -/
def NamesOf (blocks : List SiteConfig) (byName : Map Str (List Bytes × Bytes)) : Prop :=
  ∀ host, (byName.lookup host).isSome ↔ ∃ s ∈ blocks, host ∈ s.hosts

theorem addNames_lookup {r : Rustls} {certPath : Str} {certs : List Bytes} {key : Bytes} :
    ∀ {hosts : List Str} {m m' : Map Str (List Bytes × Bytes)}, addNames r certPath certs key hosts m = .ok m' →
    ∀ host, m'.lookup host = if host ∈ hosts then some (certs, key) else m.lookup host
  | [], _, _, h, host => by cases h; simp
  | k :: hosts, m, m', h, host => by
    unfold addNames at h
    split at h
    · cases h
    · rw [addNames_lookup h host, Map.lookup_insert']
      by_cases hk : host = k <;> by_cases hm : host ∈ hosts <;> simp [hk, hm]

theorem addSite_names {r : Rustls} {m : Map Str (List Bytes × Bytes)} (done : List SiteConfig) (s : SiteConfig)
    (hm : NamesOf done m) (i : Nat) :
    Obs.Holds h (fun _ _ => False) (addSite r m s : Look E _) i
      fun x _ => ∀ m', x = .ok m' → NamesOf (done ++ [s]) m' := by
  unfold addSite
  simp only [Obs.holds_bind, Obs.holds_view]
  split
  · simp
  · simp only [Obs.holds_bind, Obs.holds_view]
    split
    · simp
    · rename_i certs _ _ key _
      rw [Obs.holds_pure]
      intro m' hx
      cases hp : checkPair r certs key s.label s.cert s.key with
      | error e => rw [hp] at hx; cases hx
      | ok u =>
        rw [hp] at hx
        have hlook := addNames_lookup (show addNames r s.cert certs key s.hosts m = .ok m' from hx)
        intro host
        rw [hlook]
        split
        · rename_i hh
          simp only [Option.isSome_some, true_iff]
          exact ⟨s, by simp, hh⟩
        · rename_i hh
          rw [hm host]
          constructor
          · rintro ⟨b, hb, hbh⟩
            exact ⟨b, List.mem_append_left _ hb, hbh⟩
          · rintro ⟨b, hb, hbh⟩
            rcases List.mem_append.1 hb with hb | hb
            · exact ⟨b, hb, hbh⟩
            · rw [List.mem_singleton.1 hb] at hbh; exact absurd hbh hh

theorem addSites_names {r : Rustls} : ∀ (todo done : List SiteConfig) (m : Map Str (List Bytes × Bytes)) (i : Nat),
    NamesOf done m → Obs.Holds h (fun _ _ => False) (addSites r m todo : Look E _) i
      fun x _ => ∀ m', x = .ok m' → NamesOf (done ++ todo) m'
  | [], done, m, i, hm => by
    rw [addSites, Obs.holds_pure]
    rintro m' hx
    cases hx
    rwa [List.append_nil]
  | s :: todo, done, m, i, hm => by
    rw [addSites, Obs.holds_bind]
    refine (addSite_names done s hm i).mono (fun _ _ h => h) fun x j hx => ?_
    cases x with
    | error e => simp
    | ok m1 =>
      have := addSites_names (r := r) todo (done ++ [s]) m1 j (hx m1 rfl)
      simpa [List.append_assoc] using this

/-- A TLS configuration knows exactly the hosts of its config. -/
theorem buildTls_names {r : Rustls} (i : Nat) :
    Obs.Holds h (fun _ _ => False) (buildTls r cfg : Look E _) i
      fun x _ => ∀ tls, x = .ok tls → NamesOf cfg.sites tls.byName := by
  unfold buildTls
  rw [Obs.holds_bind]
  refine (addSites_names cfg.sites [] ∅ i (by simp [NamesOf])).mono (fun _ _ h => h) fun x j hx => ?_
  cases x with
  | error e => simp
  | ok m =>
    simp only
    split
    · simp
    · rw [Obs.holds_pure]
      rintro tls h
      cases h
      exact hx m rfl

/-! ## Runtimes -/

/-- A runtime built from a config. -/
structure RuntimeFrom (c : Crates) (cfg : Config) (rt : Runtime) : Prop where
  vhosts : VhostsFrom c.compressors cfg rt.vhosts
  names : NamesOf cfg.sites rt.tls.byName

/-- Both halves: the host table satisfies what every build of one does from the moment TLS is done. -/
theorem buildRuntime_holds {c : Crates} {V : Vhosts → Nat → Prop} (seq i : Nat)
    (hv : ∀ j, i ≤ j → Obs.Holds h (fun _ _ => False) (buildVhosts c.compressors cfg seq : Look E _) j
      fun r k => ∀ v, r.1 = .ok v → V v k) :
    Obs.Holds h (fun _ _ => False) (buildRuntime c cfg seq : Look E _) i
      fun r k => ∀ rt, r.1 = .ok rt → V rt.vhosts k ∧ NamesOf cfg.sites rt.tls.byName := by
  unfold buildRuntime
  refine (buildTls_names i).moments.bind fun x j hx => ?_
  cases x with
  | error e => simp
  | ok tls =>
    refine (hv j hx.2).bind fun r k hr => ?_
    obtain ⟨r, seq'⟩ := r
    cases r with
    | error e => simp
    | ok v =>
      simp only [Obs.holds_pure]
      rintro rt ⟨⟩
      exact ⟨hr v rfl, hx.1 tls rfl⟩

theorem buildRuntime_from {c : Crates} (seq i : Nat) :
    Obs.Holds h (fun _ _ => False) (buildRuntime c cfg seq : Look E _) i
      fun r _ => ∀ rt, r.1 = .ok rt → RuntimeFrom c cfg rt :=
  (buildRuntime_holds (V := fun v _ => VhostsFrom c.compressors cfg v) seq i fun j _ => buildVhosts_from seq j).post
    fun _ _ hr rt hrt => ⟨(hr rt hrt).1, (hr rt hrt).2⟩

/-! ## What a build reads -/

/-- A site's cache is a build of this tree. -/
def BuiltFrom (c : Crates) (site : Site) (tree : Node) : Prop :=
  ∃ env seq total total' seq', env.compressors = c.compressors ∧
    buildCache env site.policy seq tree total = (some (site.cache, total'), seq')

/-- What one site's build read: where its root was found, and the tree its cache was built from. -/
def SiteRead (h : Nat → World) (c : Crates) (a : Nat) (s : SiteConfig) (site : Site) (k : Nat) : Prop :=
  ∀ root, site.root = some root → ∃ r, s.root = some r ∧ ∃ l b, a ≤ l ∧ l ≤ b ∧ b < k ∧
    (h l).canonicalize r = .ok root ∧ BuiltFrom c site ((h b).node root)

theorem buildSite_read {c : Crates} (s : SiteConfig) (id total seq : Nat) {a j : Nat} (haj : a ≤ j) :
    Obs.Holds h (fun _ _ => False) (buildSite c.compressors cfg s id total seq : Look E _) j fun r k =>
      ∀ site total', r.1 = .ok (site, total') → site.id = id ∧ SiteRead h c a s site k := by
  unfold buildSite
  simp only
  split
  · simp
  · cases hroot : s.root with
    | none =>
      rw [Obs.holds_pure]
      rintro site total' ⟨⟩
      exact ⟨rfl, nofun⟩
    | some r =>
      simp only [Obs.holds_bind, Obs.holds_view]
      cases hcan : (h j).canonicalize r with
      | error e => simp
      | ok root =>
        simp only [Obs.holds_bind, Obs.holds_view]
        split
        · simp
        · simp only [Obs.holds_bind, Obs.holds_view]
          split
          · simp
          · rename_i cache total' seq' hb
            rw [Obs.holds_pure]
            rintro site total'' ⟨⟩
            refine ⟨rfl, ?_⟩
            rintro root' ⟨⟩
            exact ⟨r, hroot, j, j + 2, haj, by omega, by omega, hcan, _, _, _, _, _, rfl, hb⟩

theorem SiteRead.later {c : Crates} {a : Nat} {s : SiteConfig} {site : Site} {j k : Nat} (hs : SiteRead h c a s site j) (hjk : j ≤ k) :
    SiteRead h c a s site k := by
  intro root hroot
  obtain ⟨r, hr, l, b, hal, hlb, hbj, hrest⟩ := hs root hroot
  exact ⟨r, hr, l, b, hal, hlb, by omega, hrest⟩

/-- The table of a runtime, with what each site's build read. -/
theorem buildRuntime_read {c : Crates} (seq i : Nat) :
    Obs.Holds h (fun _ _ => False) (buildRuntime c cfg seq : Look E _) i
      fun r k => ∀ rt, r.1 = .ok rt → TableOf (SiteRead h c i · · k) cfg.sites rt.vhosts.sites :=
  (buildRuntime_holds (V := fun v k => TableOf (SiteRead h c i · · k) cfg.sites v.sites) seq i fun _ hij =>
    (buildVhosts_table (fun _ _ _ _ hS hle => hS.later hle)
      (fun s id total seq _ hl => buildSite_read s id total seq (hij.trans hl)) seq).post
        fun _ _ hr v hv => (hr v hv).1).post fun _ _ hr rt hrt => (hr rt hrt).1

/-- A table built from a config has exactly the config's hosts. -/
theorem SitesFrom.isSome_iff {blocks : List SiteConfig} {sites : Sites} (hs : SitesFrom c cfg blocks sites) (host : Str) :
    (sites.lookup host).isSome ↔ ∃ s ∈ blocks, host ∈ s.hosts := by
  constructor
  · intro h
    obtain ⟨site, hsite⟩ := Option.isSome_iff_exists.1 h
    obtain ⟨s, hs', hh, -⟩ := hs.site host site hsite
    exact ⟨s, hs', hh⟩
  · rintro ⟨s, hs', hh⟩
    exact hs.hosts s hs' host hh

end
end BareServer
