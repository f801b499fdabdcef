/-
What a host table keeps in memory: its error pages, and the cache of each distinct site. The watcher counts
it site by site before it rebuilds one of them.
-/
import BareServer.Watch.Steps

namespace BareServer

open BareServer.Lib

/-! ## Distinct sites -/

/-- The distinct sites of a table. -/
def Sites.distinct (sites : Sites) : List Site := sites.values.pwFilter fun a b => a.id ≠ b.id

/-- Cached bytes of the distinct sites. -/
def contentBytes (sites : Sites) : Nat := (sites.distinct.map fun s => cacheBytes s.cache.map).sum

/-- All bytes a table keeps in memory. -/
def Vhosts.resident (v : Vhosts) : Nat := errorPageBytes v + contentBytes v.sites

theorem errorPageBytes_eq (v : Vhosts) :
    errorPageBytes v = v.errors.retainedBytes + (v.sites.distinct.map fun s => s.policy.errors.retainedBytes).sum := rfl

theorem mem_values_of_distinct {sites : Sites} {s : Site} (h : s ∈ sites.distinct) : s ∈ sites.values :=
  List.pwFilter_subset _ h

theorem distinct_ids (sites : Sites) : (sites.distinct.map (·.id)).Nodup := by
  rw [List.Nodup, List.pairwise_map]
  exact List.pairwise_pwFilter _

/-- Every site of a table is there, up to its identity. -/
theorem exists_distinct {sites : Sites} {s : Site} (h : s ∈ sites.values) : ∃ d ∈ sites.distinct, d.id = s.id := by
  by_contra hno
  have hall : ∀ b ∈ sites.distinct, s.id ≠ b.id := fun b hb heq => hno ⟨b, hb, heq.symm⟩
  refine (List.forall_mem_pwFilter (R := fun a b : Site => a.id ≠ b.id) ?_ s sites.values).1 hall s h rfl
  intro x y z hxz
  by_cases hxy : x.id = y.id
  · exact .inr (hxy ▸ hxz)
  · exact .inl hxy

theorem distinct_empty : (∅ : Sites).distinct = [] := rfl

/-- More hosts of a site that is there already. -/
theorem distinct_insertHosts_again {site : Site} : ∀ {hosts : List Str} {sites sites' : Sites},
    insertHosts site hosts sites = .ok sites' → site ∈ sites.distinct → sites'.distinct = sites.distinct
  | [], _, _, h, _ => by cases h; rfl
  | host :: hosts, sites, sites', h, hmem => by
    unfold insertHosts at h
    split at h
    · cases h
    · rename_i hnone
      have hvals := Map.values_insert (Option.not_isSome_iff_eq_none.1 hnone) site
      have hsame : Sites.distinct (sites.insert host site) = sites.distinct := by
        unfold Sites.distinct at hmem ⊢
        rw [hvals]
        exact List.pwFilter_cons_of_neg fun hall => hall site hmem rfl
      rw [distinct_insertHosts_again h (by rwa [hsame]), hsame]

/-- A site of a new identity joins the distinct ones, if it has a host. -/
theorem distinct_insertHosts {site : Site} {hosts : List Str} {sites sites' : Sites}
    (h : insertHosts site hosts sites = .ok sites') (hfresh : ∀ s ∈ sites.values, s.id ≠ site.id) :
    sites'.distinct = if hosts = [] then sites.distinct else site :: sites.distinct := by
  cases hosts with
  | nil =>
    cases h
    rfl
  | cons host hosts =>
    unfold insertHosts at h
    split at h
    · cases h
    · rename_i hnone
      have hvals := Map.values_insert (Option.not_isSome_iff_eq_none.1 hnone) site
      have hnew : Sites.distinct (sites.insert host site) = site :: sites.distinct := by
        unfold Sites.distinct
        rw [hvals]
        exact List.pwFilter_cons_of_pos fun b hb => (hfresh b (List.pwFilter_subset _ hb)).symm
      rw [distinct_insertHosts_again h (by rw [hnew]; exact List.mem_cons_self), hnew, if_neg (List.cons_ne_nil _ _)]

/-! ## A rebuilt cache -/

theorem distinct_setCache (sites : Sites) (id : Nat) (cache : SiteCache) : (sites.setCache id cache).distinct =
    sites.distinct.map fun s => if s.id == id then { s with cache } else s := by
  unfold Sites.distinct Sites.setCache
  rw [Map.values_mapVal, List.pwFilter_map]
  congr 2
  funext a b
  split <;> split <;> rfl

theorem errorPageBytes_setCache (v : Vhosts) (id : Nat) (cache : SiteCache) :
    errorPageBytes { v with sites := v.sites.setCache id cache } = errorPageBytes v := by
  rw [errorPageBytes_eq, errorPageBytes_eq, distinct_setCache, List.map_map]
  congr 3
  funext s
  simp only [Function.comp_apply]
  split <;> rfl

/-- Cached bytes of the distinct sites but one. -/
def otherBytes (sites : Sites) (id : Nat) : Nat :=
  ((sites.distinct.filter fun s => s.id ≠ id).map fun s => cacheBytes s.cache.map).sum

/-- A list whose identities differ holds at most one entry of an identity. -/
theorem sum_replaced {l : List Site} (hl : (l.map (·.id)).Nodup) (id : Nat) (cache : SiteCache) :
    ((l.map fun s => if s.id == id then { s with cache } else s).map fun s => cacheBytes s.cache.map).sum ≤
      ((l.filter fun s => s.id ≠ id).map fun s => cacheBytes s.cache.map).sum + cacheBytes cache.map := by
  induction l with
  | nil => simp
  | cons s l ih =>
    rw [List.map_cons, List.nodup_cons] at hl
    have hrest := ih hl.2
    by_cases hid : s.id = id
    · -- the others keep their caches
      have hothers : ∀ x ∈ l, x.id ≠ id := by
        intro x hx heq
        exact hl.1 (List.mem_map.2 ⟨x, hx, by rw [heq, hid]⟩)
      have hmap : (l.map fun s => if s.id == id then { s with cache } else s) = l := by
        conv_rhs => rw [← List.map_id l]
        refine List.map_congr_left fun x hx => ?_
        simp [hothers x hx]
      have hfilter : l.filter (fun s => s.id ≠ id) = l := by
        rw [List.filter_eq_self]
        intro x hx
        simpa using hothers x hx
      rw [List.map_cons, List.map_cons, List.sum_cons, hmap, List.filter_cons_of_neg (by simpa using hid), hfilter]
      simp only [hid, beq_self_eq_true, if_true]
      omega
    · rw [List.map_cons, List.map_cons, List.sum_cons, List.filter_cons_of_pos (by simpa using hid), List.map_cons,
        List.sum_cons]
      simp only [beq_iff_eq, hid, if_false]
      simp only [beq_iff_eq] at hrest
      omega

theorem contentBytes_setCache (sites : Sites) (id : Nat) (cache : SiteCache) :
    contentBytes (sites.setCache id cache) ≤ otherBytes sites id + cacheBytes cache.map := by
  rw [contentBytes, distinct_setCache]
  exact sum_replaced (distinct_ids sites) id cache

theorem otherBytes_le (sites : Sites) (id : Nat) : otherBytes sites id ≤ contentBytes sites :=
  List.Sublist.sum_le_sum (List.filter_sublist.map _) (by simp)

/-! ## What the watcher charges -/

/-- A list of targets accounts for a table: its sites of distinct identities, and every site with a root. -/
structure Accounts (sites : Sites) (targets : List (Site × Path × Str)) : Prop where
  ids : (targets.map fun t => t.1.id).Nodup
  site : ∀ t ∈ targets, ∃ s ∈ sites.values, s.id = t.1.id
  all : ∀ s ∈ sites.values, s.root.isSome → ∃ t ∈ targets, t.1.id = s.id

theorem Accounts.recached {a b : Sites} {targets : List (Site × Path × Str)} (ha : Accounts a targets) (hr : Recached a b) :
    Accounts b targets := by
  refine ⟨ha.ids, fun t ht => ?_, fun s hs hroot => ?_⟩
  · obtain ⟨s, hs, hid⟩ := ha.site t ht
    obtain ⟨host, hhost⟩ := Map.mem_values.1 hs
    obtain ⟨x, hx, hbare⟩ := hr.new hhost
    exact ⟨x, Map.mem_values.2 ⟨host, hx⟩, (Site.bare_id hbare).trans hid⟩
  · obtain ⟨host, hhost⟩ := Map.mem_values.1 hs
    obtain ⟨y, hy, hbare⟩ := hr.old hhost
    obtain ⟨t, ht, hid⟩ := ha.all y (Map.mem_values.2 ⟨host, hy⟩) (by rwa [Site.bare_root hbare])
    exact ⟨t, ht, hid.trans (Site.bare_id hbare)⟩

/-- The targets of a scan account for its table. -/
theorem scanTargets_accounts {sites : Sites} (hs : sites.Shared) (o : HashOrder) :
    Accounts sites (orderTargets o (scanTargets (iter sites o))) := by
  have hc := scanTargets_covers (iter sites o)
  have hmem : ∀ t, t ∈ orderTargets o (scanTargets (iter sites o)) ↔ t ∈ scanTargets (iter sites o) := by
    intro t
    refine ⟨mem_orderTargets, fun ht => List.mem_filterMap.2 ⟨t.2.2, ?_, ?_⟩⟩
    · exact (o.perm _).mem_iff.2 (List.mem_map_of_mem ht)
    · cases hf : (scanTargets (iter sites o)).find? fun u => u.2.2 == t.2.2 with
      | none => exact absurd (List.find?_eq_none.1 hf t ht) (by simp)
      | some u =>
        obtain ⟨hu, heq⟩ := find_host hf
        rw [List.inj_on_of_nodup_map (scanTargets_hosts hs o) hu ht heq]
  constructor
  · rw [List.nodup_map_iff_inj_on (List.Nodup.of_map _ (orderTargets_hosts (scanTargets_hosts hs o)))]
    intro t ht u hu heq
    exact List.inj_on_of_nodup_map hc.ids ((hmem t).1 ht) ((hmem u).1 hu) heq
  · intro t ht
    obtain ⟨-, host, hh⟩ := hc.root t ((hmem t).1 ht)
    exact ⟨t.1, Map.mem_values.2 ⟨host, mem_iter.1 hh⟩, rfl⟩
  · intro s hs' hroot
    obtain ⟨host, hhost⟩ := Map.mem_values.1 hs'
    obtain ⟨t, ht, hid⟩ := hc.all host s (mem_iter.2 hhost) hroot
    exact ⟨t, (hmem t).2 ht, hid⟩

theorem byId_of_mem {sites : Sites} (hs : sites.Shared) {s : Site} (h : s ∈ sites.values) : sites.byId s.id = some s := by
  unfold Sites.byId
  cases hf : sites.values.find? fun x => x.id == s.id with
  | none => exact absurd (List.find?_eq_none.1 hf s h) (by simp)
  | some x =>
    obtain ⟨host, hhost⟩ := Map.mem_values.1 (List.mem_of_find?_eq_some hf)
    obtain ⟨host', hhost'⟩ := Map.mem_values.1 h
    rw [hs host host' x s hhost hhost' (by simpa using List.find?_some hf)]

/-- A sum over some identities is the sum over more of them that add nothing. -/
theorem sum_map_subset {l m : List Nat} {f : Nat → Nat} (hl : l.Nodup) (hm : m.Nodup) (hsub : ∀ n ∈ l, n ∈ m)
    (hzero : ∀ n ∈ m, n ∉ l → f n = 0) : (l.map f).sum = (m.map f).sum := by
  rw [← List.sum_toFinset f hl, ← List.sum_toFinset f hm]
  refine Finset.sum_subset (fun n hn => ?_) fun n hn hnot => ?_
  · exact List.mem_toFinset.2 (hsub n (List.mem_toFinset.1 hn))
  · exact hzero n (List.mem_toFinset.1 hn) fun h => hnot (List.mem_toFinset.2 h)

/-- What a rebuild is charged beforehand: the error pages, and the caches of the other sites. -/
theorem charged_eq {w : Watcher} {targets : List (Site × Path × Str)} (hs : w.live.runtime.vhosts.sites.Shared)
    (hempty : ∀ s ∈ w.live.runtime.vhosts.sites.values, s.root = none → s.cache.map = ∅)
    (ha : Accounts w.live.runtime.vhosts.sites targets) (id : Nat) :
    charged w targets id = otherBytes w.live.runtime.vhosts.sites id + errorPageBytes w.live.runtime.vhosts := by
  unfold charged otherBytes
  rw [Nat.add_right_cancel_iff]
  generalize w.live.runtime.vhosts.sites = sites at hs hempty ha
  -- both sums run over identities, and an identity without a target is that of a site without a root
  let bytes : Nat → Nat := fun n => ((sites.byId n).map fun s => cacheBytes s.cache.map).getD 0
  have hbytes : ∀ s ∈ sites.distinct, cacheBytes s.cache.map = bytes s.id := by
    intro s hmem
    simp only [bytes]
    rw [byId_of_mem hs (mem_values_of_distinct hmem)]
    rfl
  have hleft : ((targets.filter fun t => t.1.id != id).map fun t => bytes t.1.id) =
      ((targets.map fun t => t.1.id).filter (· != id)).map bytes := by
    rw [List.filter_map, List.map_map]
    rfl
  have hright : ((sites.distinct.filter fun s => s.id ≠ id).map fun s => cacheBytes s.cache.map) =
      ((sites.distinct.map (·.id)).filter (· != id)).map bytes := by
    rw [List.filter_map, List.map_map]
    have hfilter : sites.distinct.filter (fun s => s.id ≠ id) = sites.distinct.filter ((· != id) ∘ (·.id)) :=
      List.filter_congr fun s _ => by by_cases h : s.id = id <;> simp [h]
    rw [hfilter]
    exact List.map_congr_left fun s hmem => hbytes s (List.mem_filter.1 hmem).1
  rw [hright]
  refine (congrArg List.sum hleft).trans (sum_map_subset (ha.ids.filter _) ((distinct_ids sites).filter _) ?_ ?_)
  · intro n hn
    obtain ⟨hn, hne⟩ := List.mem_filter.1 hn
    obtain ⟨t, ht, rfl⟩ := List.mem_map.1 hn
    obtain ⟨s, hmem, hid⟩ := ha.site t ht
    obtain ⟨d, hd, hdid⟩ := exists_distinct hmem
    exact List.mem_filter.2 ⟨List.mem_map.2 ⟨d, hd, hdid.trans hid⟩, hne⟩
  · intro n hn hnot
    obtain ⟨hn, hne⟩ := List.mem_filter.1 hn
    obtain ⟨s, hmem, rfl⟩ := List.mem_map.1 hn
    have hvals := mem_values_of_distinct hmem
    have hroot : s.root = none := by
      by_contra hsome
      obtain ⟨t, ht, hid⟩ := ha.all s hvals (Option.isSome_iff_ne_none.2 hsome)
      exact hnot (List.mem_filter.2 ⟨List.mem_map.2 ⟨t, ht, hid⟩, hne⟩)
    rw [← hbytes s hmem, hempty s hvals hroot]
    rfl

end BareServer
