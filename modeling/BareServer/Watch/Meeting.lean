/-
What a build of the host table meets. Site by site it looks at the root and walks it, until something other
than the budget refuses a site; what it meets is a sequence of charges, and the build succeeds when nothing
refuses a site and every charge is admitted.
-/
import BareServer.Cache.Charges
import BareServer.Watch.Resident

namespace BareServer

open BareServer.Lib

/-! ## One site -/

/-- One site as a build meets it: the files of its root, whether nothing but the budget stands in its way, and the
build number and the moment the build goes on with. -/
structure Met where
  block : SiteConfig
  env : BuildEnv
  seq : Nat
  visit : Visit
  after : Nat
  next : Nat

namespace Met

variable (cfg : Config) (m : Met)

def policy : Policy := sitePolicy cfg m.block

/-- The bytes of the site's error pages. -/
def errorBytes : Nat := (m.policy cfg).errors.retainedBytes

/-- The charges of the site's files. -/
def contentCharges : List Charge :=
  fileCharges m.env (m.policy cfg) (snapshotDir (m.policy cfg) m.seq) m.visit.files

/-- The charges of the site: its error pages, which are always tested, and its files. -/
def charges : List Charge := ⟨some (m.errorBytes cfg), m.errorBytes cfg⟩ :: m.contentCharges cfg

/-- The cache of the site. -/
def content : Cache := contentOf m.env (m.policy cfg) (snapshotDir (m.policy cfg) m.seq) m.visit.files

/-- What the site keeps in memory. -/
def resident : Nat := m.errorBytes cfg + cacheBytes (m.content cfg)

theorem contentCharges_nil (h : m.visit.files = []) : m.contentCharges cfg = [] := by
  rw [contentCharges, h]
  rfl

theorem kept_charges : Charge.kept (m.charges cfg) = m.errorBytes cfg + Charge.kept (m.contentCharges cfg) :=
  Charge.kept_cons _ _

/-- A site's error pages fit, and then its files. -/
theorem admits_charges {max total : Nat} : Charge.Admits max total (m.charges cfg) ↔
    total + m.errorBytes cfg ≤ max ∧ Charge.Admits max (total + m.errorBytes cfg) (m.contentCharges cfg) := by
  constructor
  · rintro ⟨hfit, hrest⟩
    exact ⟨hfit _ rfl, hrest⟩
  · rintro ⟨hle, hrest⟩
    refine ⟨?_, hrest⟩
    rintro a ⟨⟩
    exact hle

theorem resident_le : m.resident cfg ≤ Charge.kept (m.charges cfg) := by
  rw [kept_charges]
  exact Nat.add_le_add_left (cacheBytes_contentOf _) _

end Met

/-- What a build meets of a site from one moment on. -/
def meetSite (h : Nat → World) (c : Compressors) (cfg : Config) (s : SiteConfig) (seq i : Nat) : Met :=
  let env k : BuildEnv := ⟨c, (h k).mkdir, (h k).writes⟩
  match s.root with
  | none => ⟨s, env i, seq, ⟨[], true⟩, seq, i⟩
  | some r =>
    match (h i).canonicalize r with
    | .error _ => ⟨s, env i, seq, ⟨[], false⟩, seq, i + 1⟩
    | .ok root =>
      if ((h (i + 1)).node root).isDir then
        ⟨s, env (i + 2), seq, buildVisit (env (i + 2)) (sitePolicy cfg s) seq ((h (i + 2)).node root),
          nextSeq (sitePolicy cfg s) seq, i + 3⟩
      else ⟨s, env i, seq, ⟨[], false⟩, seq, i + 2⟩

/-- A live site is the one met. -/
structure SiteBuilt (cfg : Config) (m : Met) (id : Nat) (site : Site) : Prop where
  id : site.id = id
  policy : site.policy = m.policy cfg
  content : site.cache.map = m.content cfg
  rootless : site.root = none → site.cache.map = ∅

section

variable {E : Type} {h : Nat → World} {c : Compressors} {cfg : Config} {s : SiteConfig} {total seq i : Nat}

theorem sitePolicy_t (cfg : Config) (s : SiteConfig) : (sitePolicy cfg s).t = s.tuning := rfl

theorem meetSite_block : (meetSite h c cfg s seq i).block = s := by
  unfold meetSite
  cases s.root with
  | none => rfl
  | some r =>
    simp only
    split
    · rfl
    · split <;> rfl

/-- A site that nothing refuses is built, and charged for what it retains. -/
theorem buildSite_admits (id : Nat) (hw : (meetSite h c cfg s seq i).visit.whole = true)
    (hfit : Charge.Admits s.tuning.maxTotalBytes total ((meetSite h c cfg s seq i).charges cfg)) :
    Obs.Holds h (fun _ _ => False) (buildSite c cfg s id total seq : Look E _) i fun r j => ∃ site,
      r = (.ok (site, total + Charge.kept ((meetSite h c cfg s seq i).charges cfg)), (meetSite h c cfg s seq i).after) ∧
      j = (meetSite h c cfg s seq i).next ∧ SiteBuilt cfg (meetSite h c cfg s seq i) id site := by
  have herr : total + (meetSite h c cfg s seq i).errorBytes cfg ≤ s.tuning.maxTotalBytes := hfit.1 _ rfl
  have hrest := hfit.2
  rw [Met.errorBytes, Met.policy, meetSite_block, ← sitePolicy_t cfg s, ← Nat.not_lt] at herr
  unfold buildSite
  simp only
  rw [if_neg herr]
  unfold meetSite at hw hrest ⊢
  cases hroot : s.root with
  | none =>
    rw [Obs.holds_pure]
    refine ⟨siteOf cfg s id none .empty, ?_, rfl, rfl, rfl, rfl, fun _ => rfl⟩
    rw [Met.kept_charges, Met.contentCharges_nil _ _ rfl, Charge.kept_nil, Nat.add_zero]
    rfl
  | some r =>
    simp only [hroot] at hw hrest ⊢
    rw [Obs.holds_bind, Obs.holds_view]
    cases hcan : (h i).canonicalize r with
    | error e =>
      rw [hcan] at hw
      cases hw
    | ok root =>
      simp only [hcan] at hw hrest ⊢
      rw [Obs.holds_bind, Obs.holds_view]
      by_cases hdir : ((h (i + 1)).node root).isDir = true
      · rw [if_neg (by simp [hdir]), Obs.holds_bind, Obs.holds_view]
        rw [if_pos hdir] at hw hrest ⊢
        obtain ⟨cache, hcache, hmap⟩ := buildCache_admits hw hrest
        simp only [Met.errorBytes, Met.policy] at hcache
        rw [hcache, Obs.holds_pure]
        refine ⟨siteOf cfg s id (some root) cache, ?_, rfl, rfl, rfl, hmap, fun h => by cases h⟩
        rw [Met.kept_charges, ← Nat.add_assoc]
        rfl
      · rw [if_neg hdir] at hw
        cases hw

/-- A site that something refuses is not built. -/
theorem buildSite_refused (id : Nat) (hno : ¬ ((meetSite h c cfg s seq i).visit.whole = true ∧
      Charge.Admits s.tuning.maxTotalBytes total ((meetSite h c cfg s seq i).charges cfg))) :
    Obs.Holds h (fun _ _ => False) (buildSite c cfg s id total seq : Look E _) i fun r _ => ∃ e, r.1 = .error e := by
  unfold buildSite
  simp only
  split
  · rw [Obs.holds_pure]
    exact ⟨_, rfl⟩
  · rename_i herr
    have hfirst : (⟨some ((meetSite h c cfg s seq i).errorBytes cfg), (meetSite h c cfg s seq i).errorBytes cfg⟩ : Charge).Fits
        s.tuning.maxTotalBytes total := by
      rintro a ⟨⟩
      rw [Met.errorBytes, Met.policy, meetSite_block]
      exact Nat.not_lt.1 herr
    have hrest : ¬ ((meetSite h c cfg s seq i).visit.whole = true ∧ Charge.Admits s.tuning.maxTotalBytes
        (total + (meetSite h c cfg s seq i).errorBytes cfg) ((meetSite h c cfg s seq i).contentCharges cfg)) :=
      fun hok => hno ⟨hok.1, hfirst, hok.2⟩
    unfold meetSite at hrest
    cases hroot : s.root with
    | none => exact absurd ⟨by rw [hroot], by rw [hroot]; trivial⟩ hrest
    | some r =>
      simp only [hroot] at hrest ⊢
      rw [Obs.holds_bind, Obs.holds_view]
      cases hcan : (h i).canonicalize r with
      | error e =>
        rw [Obs.holds_pure]
        exact ⟨_, rfl⟩
      | ok root =>
        simp only [hcan] at hrest ⊢
        rw [Obs.holds_bind, Obs.holds_view]
        by_cases hdir : ((h (i + 1)).node root).isDir = true
        · rw [if_neg (by simp [hdir]), Obs.holds_bind, Obs.holds_view]
          rw [if_pos hdir] at hrest
          have hcache := buildCache_refused hrest
          simp only [Met.errorBytes, Met.policy] at hcache
          generalize buildCache ⟨c, (h (i + 1 + 1)).mkdir, (h (i + 1 + 1)).writes⟩ (sitePolicy cfg s) seq
            ((h (i + 1 + 1)).node root) (total + (sitePolicy cfg s).errors.retainedBytes) = built at hcache ⊢
          obtain ⟨built, seq'⟩ := built
          simp only at hcache
          rw [hcache, Obs.holds_pure]
          exact ⟨_, rfl⟩
        · rw [if_pos (by simp [hdir]), Obs.holds_pure]
          exact ⟨_, rfl⟩

/-- What any build of one site gives. -/
theorem buildSite_built (s : SiteConfig) (id total seq i : Nat) :
    Obs.Holds h (fun _ _ => False) (buildSite c cfg s id total seq : Look E _) i fun r _ => ∀ site total',
      r.1 = .ok (site, total') → site.id = id ∧ site.policy = sitePolicy cfg s ∧
        (site.root = none → site.cache.map = ∅) := by
  by_cases hok : (meetSite h c cfg s seq i).visit.whole = true ∧
      Charge.Admits s.tuning.maxTotalBytes total ((meetSite h c cfg s seq i).charges cfg)
  · refine (buildSite_admits id hok.1 hok.2).post ?_
    rintro r j ⟨site, rfl, -, hb⟩ site' total' heq
    cases heq
    refine ⟨hb.id, ?_, hb.rootless⟩
    rw [hb.policy, Met.policy, meetSite_block]
  · refine (buildSite_refused id hok).post ?_
    rintro r j ⟨e, he⟩ site total' heq
    rw [he] at heq
    cases heq

end

/-! ## All sites -/

/-- The sites met, and whether nothing but the budget refuses one of them. -/
structure Meeting where
  sites : List Met
  whole : Bool

/-- What a build meets: site after site, until one is refused for its root, for a directory below it, or for a host
that is taken. -/
def meetSites (h : Nat → World) (c : Compressors) (cfg : Config) : List Str → Nat → Nat → List SiteConfig → Meeting
  | _, _, _, [] => ⟨[], true⟩
  | taken, seq, i, s :: rest =>
    let m := meetSite h c cfg s seq i
    if m.visit.whole = true ∧ (taken ++ s.hosts).Nodup then
      let later := meetSites h c cfg (taken ++ s.hosts) m.after m.next rest
      ⟨m :: later.sites, later.whole⟩
    else ⟨[m], false⟩

namespace Meeting

variable (cfg : Config) (k : Meeting)

def charges : List Charge := k.sites.flatMap (·.charges cfg)

/-- What the sites with a host keep in memory. A site that no host leads to is dropped with the build. -/
def resident : Nat := ((k.sites.filter fun m => m.block.hosts ≠ []).map (·.resident cfg)).sum

theorem resident_le : k.resident cfg ≤ Charge.kept (k.charges cfg) := by
  rw [charges, Charge.kept_flatMap, resident]
  refine (List.Sublist.sum_le_sum (List.filter_sublist.map _) (by simp)).trans ?_
  exact List.sum_le_sum fun m _ => m.resident_le cfg

end Meeting

/-- The hosts of a table. -/
def Taken (taken : List Str) (sites : Sites) : Prop := ∀ host, host ∈ taken ↔ (sites.lookup host).isSome

theorem taken_empty : Taken [] ∅ := by
  intro host
  simp

theorem Taken.insert {taken : List Str} {sites : Sites} (ht : Taken taken sites) (host : Str) (site : Site) :
    Taken (taken ++ [host]) (sites.insert host site) := by
  intro k
  rw [List.mem_append, List.mem_singleton, ht k, Map.lookup_insert']
  split
  · rename_i hk
    simp [hk]
  · rename_i hk
    simp [hk]

/-- Hosts are entered when none of them is taken and none comes twice. -/
theorem insertHosts_ok {site : Site} : ∀ {hosts taken : List Str} {sites : Sites}, Taken taken sites →
    (taken ++ hosts).Nodup → ∃ sites', insertHosts site hosts sites = .ok sites' ∧ Taken (taken ++ hosts) sites'
  | [], taken, sites, ht, _ => ⟨sites, rfl, by rwa [List.append_nil]⟩
  | host :: hosts, taken, sites, ht, hn => by
    rw [List.append_cons] at hn ⊢
    obtain ⟨sites', hok, ht'⟩ := insertHosts_ok (ht.insert host site) hn
    have hfree : host ∉ taken := by
      intro hmem
      rw [List.append_assoc, List.nodup_append] at hn
      exact hn.2.2 host hmem host (by simp) rfl
    refine ⟨sites', ?_, ht'⟩
    unfold insertHosts
    rw [if_neg fun hsome => hfree ((ht host).2 hsome)]
    exact hok

theorem insertHosts_nodup {site : Site} : ∀ {hosts taken : List Str} {sites sites' : Sites}, Taken taken sites →
    insertHosts site hosts sites = .ok sites' → taken.Nodup → (taken ++ hosts).Nodup
  | [], taken, _, _, _, _, hn => by rwa [List.append_nil]
  | host :: hosts, taken, sites, sites', ht, hok, hn => by
    unfold insertHosts at hok
    split at hok
    · cases hok
    · rename_i hfree
      rw [List.append_cons]
      refine insertHosts_nodup (ht.insert host site) hok ?_
      rw [List.nodup_append]
      refine ⟨hn, List.nodup_singleton _, fun a ha b hb heq => hfree ((ht host).1 ?_)⟩
      rw [← List.mem_singleton.1 hb, ← heq]
      exact ha

/-- What a site keeps in memory. -/
def Site.resident (s : Site) : Nat := s.policy.errors.retainedBytes + cacheBytes s.cache.map

theorem Vhosts.resident_eq (v : Vhosts) :
    v.resident = v.errors.retainedBytes + (v.sites.distinct.map Site.resident).sum := by
  have hsum : (v.sites.distinct.map Site.resident).sum =
      (v.sites.distinct.map fun s => s.policy.errors.retainedBytes).sum + contentBytes v.sites := List.sum_map_add
  rw [Vhosts.resident, errorPageBytes_eq, hsum, Nat.add_assoc]

section

variable {E : Type} {h : Nat → World} {c : Compressors} {cfg : Config} {max : Nat}

theorem SiteBuilt.resident {m : Met} {id : Nat} {site : Site} (hb : SiteBuilt cfg m id site) :
    site.resident = m.resident cfg := by
  rw [Site.resident, hb.policy, hb.content]
  rfl

/-- Sites that nothing refuses are all built, and the table keeps what they keep. -/
theorem buildSites_admits : ∀ {todo : List SiteConfig} {taken : List Str} {sites : Sites} {id total seq i : Nat},
    (∀ s ∈ todo, s.tuning.maxTotalBytes = max) → Taken taken sites → (∀ s ∈ Map.values sites, s.id < id) →
    (meetSites h c cfg taken seq i todo).whole = true →
    Charge.Admits max total ((meetSites h c cfg taken seq i todo).charges cfg) →
    Obs.Holds h (fun _ _ => False) (buildSites c cfg sites id total seq todo : Look E _) i fun r _ => ∃ v,
      r.1 = .ok v ∧ (v.distinct.map Site.resident).sum =
        (sites.distinct.map Site.resident).sum + (meetSites h c cfg taken seq i todo).resident cfg
  | [], taken, sites, id, total, seq, i, _, _, _, _, _ => by
    rw [buildSites, Obs.holds_pure]
    exact ⟨sites, rfl, rfl⟩
  | s :: todo, taken, sites, id, total, seq, i, hmax, ht, hid, hw, hfit => by
    rw [meetSites] at hw hfit ⊢
    by_cases hgo : (meetSite h c cfg s seq i).visit.whole = true ∧ (taken ++ s.hosts).Nodup
    · simp only [if_pos hgo] at hw hfit ⊢
      rw [Meeting.charges, List.flatMap_cons, Charge.admits_append] at hfit
      have hone := hfit.1
      rw [← hmax s List.mem_cons_self] at hone
      rw [buildSites]
      refine (buildSite_admits id hgo.1 hone).bind ?_
      rintro r j ⟨site, rfl, rfl, hb⟩
      obtain ⟨sites', hins, ht'⟩ := insertHosts_ok ht hgo.2
      have hfresh : ∀ x ∈ Map.values sites, x.id ≠ site.id := by
        intro x hx
        have := hid x hx
        have := hb.id
        omega
      have hdistinct := distinct_insertHosts hins hfresh
      simp only [hins]
      refine (buildSites_admits (fun x hx => hmax x (List.mem_cons_of_mem _ hx)) ht' ?_ hw hfit.2).post ?_
      · intro x hx
        obtain ⟨host, hhost⟩ := Map.mem_values.1 hx
        rw [insertHosts_lookup hins] at hhost
        split at hhost
        · cases hhost
          rw [hb.id]
          omega
        · have := hid x (Map.mem_values.2 ⟨host, hhost⟩)
          omega
      · rintro r j ⟨v, hv, hsum⟩
        refine ⟨v, hv, ?_⟩
        rw [hsum, hdistinct, Meeting.resident, Meeting.resident]
        -- a site without a host is built and charged, but no entry of the table holds it
        by_cases hhosts : s.hosts = []
        · rw [if_pos hhosts, List.filter_cons_of_neg (by simp [meetSite_block, hhosts])]
        · rw [if_neg hhosts, List.filter_cons_of_pos (by simp [meetSite_block, hhosts]), List.map_cons, List.map_cons,
            List.sum_cons, List.sum_cons, hb.resident]
          omega
    · simp only [if_neg hgo] at hw
      cases hw

/-- Sites of which one is refused are not built. -/
theorem buildSites_refused : ∀ {todo : List SiteConfig} {taken : List Str} {sites : Sites} {id total seq i : Nat},
    (∀ s ∈ todo, s.tuning.maxTotalBytes = max) → Taken taken sites → taken.Nodup →
    ¬ ((meetSites h c cfg taken seq i todo).whole = true ∧
      Charge.Admits max total ((meetSites h c cfg taken seq i todo).charges cfg)) →
    Obs.Holds h (fun _ _ => False) (buildSites c cfg sites id total seq todo : Look E _) i fun r _ => ∃ e, r.1 = .error e
  | [], _, _, _, _, _, _, _, _, _, hno => absurd ⟨rfl, trivial⟩ hno
  | s :: todo, taken, sites, id, total, seq, i, hmax, ht, hn, hno => by
    rw [meetSites] at hno
    rw [buildSites]
    by_cases hok : (meetSite h c cfg s seq i).visit.whole = true ∧
        Charge.Admits s.tuning.maxTotalBytes total ((meetSite h c cfg s seq i).charges cfg)
    · refine (buildSite_admits id hok.1 hok.2).bind ?_
      rintro r j ⟨site, rfl, rfl, hb⟩
      simp only
      cases hins : insertHosts site s.hosts sites with
      | error e =>
        -- a host of the site is taken
        rw [Obs.holds_pure]
        exact ⟨e, rfl⟩
      | ok sites' =>
        have hnodup := insertHosts_nodup ht hins hn
        obtain ⟨sites'', hins', ht'⟩ := @insertHosts_ok site s.hosts taken sites ht hnodup
        rw [hins] at hins'
        cases hins'
        simp only [if_pos (And.intro hok.1 hnodup)] at hno
        refine buildSites_refused (fun x hx => hmax x (List.mem_cons_of_mem _ hx)) ht' hnodup fun hrest => hno ⟨hrest.1, ?_⟩
        rw [Meeting.charges, List.flatMap_cons, Charge.admits_append]
        refine ⟨?_, hrest.2⟩
        rw [← hmax s List.mem_cons_self]
        exact hok.2
    · refine (buildSite_refused id hok).bind ?_
      rintro ⟨r, seq'⟩ j ⟨e, he⟩
      simp only at he
      rw [he]
      simp only
      rw [Obs.holds_pure]
      exact ⟨e, rfl⟩

end
end BareServer
