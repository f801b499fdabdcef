/-
The keys and the targets of the content scan: a table's rooted sites, one target for each, under the
least of its hosts.
-/
import BareServer.Watch.BuildSpec
import BareServer.Watch.Watch

namespace BareServer

open BareServer.Lib

/-! ## Keys -/

/-- The text of a path has no NUL where the path has none. -/
theorem nul_notMem_display {p : Path} (hp : (0 : UInt8) ∉ p) : (0 : UInt8) ∉ display p := by
  intro h
  rcases mem_lossyFrom p .start [] 0 h with h | h | h
  · cases h
  · exact hp h
  · revert h; decide

/-- The last NUL of a key ends its host. -/
theorem siteKey_inj {host host' root root' : Str} (hr : (0 : UInt8) ∉ root) (hr' : (0 : UInt8) ∉ root')
    (h : siteKey host root = siteKey host' root') : host = host' ∧ root = root' := by
  unfold siteKey at h
  induction host generalizing host' with
  | nil =>
    cases host' with
    | nil => exact ⟨rfl, (List.cons.inj h).2⟩
    | cons x host' =>
      obtain ⟨-, rfl⟩ := List.cons.inj h
      simp at hr
  | cons x host ih =>
    cases host' with
    | nil =>
      obtain ⟨-, rfl⟩ := List.cons.inj h
      simp at hr'
    | cons y host' =>
      obtain ⟨rfl, htail⟩ := List.cons.inj h
      obtain ⟨rfl, rfl⟩ := ih htail
      exact ⟨rfl, rfl⟩

/-! ## Iteration -/

theorem mem_iter {β : Type} {m : Map Str β} {o : HashOrder} {k : Str} {v : β} :
    (k, v) ∈ iter m o ↔ m.lookup k = some v := by
  unfold iter
  rw [List.mem_filterMap]
  constructor
  · rintro ⟨k', -, h⟩
    obtain ⟨v', hv', h⟩ := Option.map_eq_some_iff.1 h
    cases h
    exact hv'
  · intro h
    refine ⟨k, (o.perm m.keys).mem_iff.2 ?_, by rw [h]; rfl⟩
    rw [← AList.mem_keys, ← AList.lookup_isSome, h]
    rfl

theorem mem_rooted {sites : List (Str × Site)} {host : Str} {root : Path} :
    (host, root) ∈ rooted sites ↔ ∃ site, (host, site) ∈ sites ∧ site.root = some root := by
  unfold rooted
  rw [List.mem_filterMap]
  constructor
  · rintro ⟨⟨k, site⟩, hm, h⟩
    obtain ⟨r, hr, h⟩ := Option.map_eq_some_iff.1 h
    cases h
    exact ⟨site, hm, hr⟩
  · rintro ⟨site, hm, hr⟩
    exact ⟨(host, site), hm, by simp [hr]⟩

/-! ## Targets -/

/-- A list of targets covers these entries: one target for each site with a root, under the least of the
hosts it has there. -/
structure Covers (entries : List (Str × Site)) (targets : List (Site × Path × Str)) : Prop where
  root : ∀ t ∈ targets, t.1.root = some t.2.1 ∧ ∃ host, (host, t.1) ∈ entries
  host : ∀ t ∈ targets, ∃ site, (t.2.2, site) ∈ entries ∧ site.id = t.1.id
  least : ∀ t ∈ targets, ∀ host site, (host, site) ∈ entries → site.root.isSome → site.id = t.1.id → ¬ host < t.2.2
  ids : (targets.map fun t => t.1.id).Nodup
  all : ∀ host site, (host, site) ∈ entries → site.root.isSome → ∃ t ∈ targets, t.1.id = site.id

theorem str_lt_irrefl (a : Str) : ¬ a < a := List.lt_irrefl a

theorem str_lt_trans {a b d : Str} (hab : a < b) (hbd : b < d) : a < d := List.lt_trans hab hbd

/-- Another host of a site that has a target: the lesser host names it. -/
theorem Covers.rename {entries : List (Str × Site)} {targets : List (Site × Path × Str)} (hc : Covers entries targets)
    {host : Str} {site : Site} (hid : ∃ t ∈ targets, t.1.id = site.id) :
    Covers (entries ++ [(host, site)]) (targets.map fun t =>
      if t.1.id == site.id && decide (host < t.2.2) then (t.1, t.2.1, host) else t) := by
  constructor
  · intro t' ht'
    obtain ⟨t, ht, rfl⟩ := List.mem_map.1 ht'
    obtain ⟨hr, host', hh⟩ := hc.root t ht
    have hm : ∃ host', (host', t.1) ∈ entries ++ [(host, site)] := ⟨host', List.mem_append_left _ hh⟩
    split <;> exact ⟨hr, hm⟩
  · intro t' ht'
    obtain ⟨t, ht, rfl⟩ := List.mem_map.1 ht'
    split
    · rename_i hb
      simp only [Bool.and_eq_true, beq_iff_eq, decide_eq_true_eq] at hb
      exact ⟨site, by simp, hb.1.symm⟩
    · obtain ⟨x, hx, hxid⟩ := hc.host t ht
      exact ⟨x, List.mem_append_left _ hx, hxid⟩
  · intro t' ht' host0 site0 hmem hroot heq
    obtain ⟨t, ht, rfl⟩ := List.mem_map.1 ht'
    rcases List.mem_append.1 hmem with hold | hnew
    · -- an older host is not less than the name it had, nor than the lesser one that replaces it
      split
      · rename_i hb
        simp only [Bool.and_eq_true, beq_iff_eq, decide_eq_true_eq] at hb
        rw [if_pos (by simp [hb])] at heq
        exact fun hlt => hc.least t ht host0 site0 hold hroot heq (str_lt_trans hlt hb.2)
      · rename_i hb
        rw [if_neg hb] at heq
        exact hc.least t ht host0 site0 hold hroot heq
    · obtain ⟨rfl, rfl⟩ := Prod.mk.inj (List.mem_singleton.1 hnew)
      split
      · exact str_lt_irrefl _
      · rename_i hb
        rw [if_neg hb] at heq
        simp only [Bool.and_eq_true, beq_iff_eq, decide_eq_true_eq, not_and] at hb
        exact hb heq.symm
  · rw [List.map_map]
    have hids : ((fun t : Site × Path × Str => t.1.id) ∘ fun t =>
        if t.1.id == site.id && decide (host < t.2.2) then (t.1, t.2.1, host) else t) = fun t => t.1.id := by
      funext t
      simp only [Function.comp_apply]
      split <;> rfl
    rw [hids]
    exact hc.ids
  · intro host0 site0 hmem hroot
    have hkeep : ∀ n, (∃ t ∈ targets, t.1.id = n) → ∃ t ∈ targets.map fun t =>
        if t.1.id == site.id && decide (host < t.2.2) then (t.1, t.2.1, host) else t, t.1.id = n := by
      rintro n ⟨t, ht, rfl⟩
      refine ⟨_, List.mem_map_of_mem ht, ?_⟩
      split <;> rfl
    rcases List.mem_append.1 hmem with hold | hnew
    · exact hkeep _ (hc.all host0 site0 hold hroot)
    · obtain ⟨rfl, rfl⟩ := Prod.mk.inj (List.mem_singleton.1 hnew)
      exact hkeep _ hid

/-- A site without a target gets one. -/
theorem Covers.add {entries : List (Str × Site)} {targets : List (Site × Path × Str)} (hc : Covers entries targets)
    {host : Str} {site : Site} {r : Path} (hr : site.root = some r) (hid : ¬ ∃ t ∈ targets, t.1.id = site.id) :
    Covers (entries ++ [(host, site)]) (targets ++ [(site, r, host)]) := by
  constructor
  · intro t ht
    rcases List.mem_append.1 ht with hold | hnew
    · obtain ⟨hroot, host', hh⟩ := hc.root t hold
      exact ⟨hroot, host', List.mem_append_left _ hh⟩
    · rw [List.mem_singleton.1 hnew]
      exact ⟨hr, host, by simp⟩
  · intro t ht
    rcases List.mem_append.1 ht with hold | hnew
    · obtain ⟨x, hx, hxid⟩ := hc.host t hold
      exact ⟨x, List.mem_append_left _ hx, hxid⟩
    · rw [List.mem_singleton.1 hnew]
      exact ⟨site, by simp, rfl⟩
  · intro t ht host0 site0 hmem hroot heq
    rcases List.mem_append.1 ht with hold | hnew <;> rcases List.mem_append.1 hmem with hmold | hmnew
    · exact hc.least t hold host0 site0 hmold hroot heq
    · obtain ⟨rfl, rfl⟩ := Prod.mk.inj (List.mem_singleton.1 hmnew)
      exact absurd ⟨t, hold, heq.symm⟩ hid
    · rw [List.mem_singleton.1 hnew] at heq
      obtain ⟨t', ht', hid'⟩ := hc.all host0 site0 hmold hroot
      exact absurd ⟨t', ht', hid'.trans heq⟩ hid
    · obtain ⟨rfl, rfl⟩ := Prod.mk.inj (List.mem_singleton.1 hmnew)
      rw [List.mem_singleton.1 hnew]
      exact str_lt_irrefl _
  · rw [List.map_append, List.map_singleton, List.nodup_append]
    refine ⟨hc.ids, List.nodup_singleton _, ?_⟩
    intro a ha b hb
    obtain ⟨t, ht, rfl⟩ := List.mem_map.1 ha
    rw [List.mem_singleton.1 hb]
    exact fun heq => hid ⟨t, ht, heq⟩
  · intro host0 site0 hmem hroot
    rcases List.mem_append.1 hmem with hold | hnew
    · obtain ⟨t, ht, hid'⟩ := hc.all host0 site0 hold hroot
      exact ⟨t, List.mem_append_left _ ht, hid'⟩
    · obtain ⟨rfl, rfl⟩ := Prod.mk.inj (List.mem_singleton.1 hnew)
      exact ⟨(_, r, _), List.mem_append_right _ (List.mem_singleton.2 rfl), rfl⟩

/-- A redirect-only site has no target. -/
theorem Covers.skip {entries : List (Str × Site)} {targets : List (Site × Path × Str)} (hc : Covers entries targets)
    {host : Str} {site : Site} (hr : site.root = none) : Covers (entries ++ [(host, site)]) targets := by
  have hno : ∀ {k : Str} {x : Site}, (k, x) ∈ entries ++ [(host, site)] → x.root.isSome → (k, x) ∈ entries := by
    intro k x hmem hroot
    rcases List.mem_append.1 hmem with hold | hnew
    · exact hold
    · obtain ⟨rfl, rfl⟩ := Prod.mk.inj (List.mem_singleton.1 hnew)
      rw [hr] at hroot
      cases hroot
  constructor
  · intro t ht
    obtain ⟨hroot, host', hh⟩ := hc.root t ht
    exact ⟨hroot, host', List.mem_append_left _ hh⟩
  · intro t ht
    obtain ⟨x, hx, hxid⟩ := hc.host t ht
    exact ⟨x, List.mem_append_left _ hx, hxid⟩
  · intro t ht host0 site0 hmem hroot
    exact hc.least t ht host0 site0 (hno hmem hroot) hroot
  · exact hc.ids
  · intro host0 site0 hmem hroot
    exact hc.all host0 site0 (hno hmem hroot) hroot

theorem Covers.addTarget {entries : List (Str × Site)} {targets : List (Site × Path × Str)} (hc : Covers entries targets)
    (host : Str) (site : Site) : Covers (entries ++ [(host, site)]) (addTarget targets host site) := by
  have hany : (targets.any fun t => t.1.id == site.id) = true ↔ ∃ t ∈ targets, t.1.id = site.id := by simp
  unfold BareServer.addTarget
  cases hr : site.root with
  | none => exact hc.skip hr
  | some r =>
    simp only
    split
    · rename_i hid
      exact hc.rename (hany.1 hid)
    · rename_i hid
      exact hc.add hr fun h => hid (hany.2 h)

theorem Covers.nil : Covers [] [] := by
  constructor <;> simp

theorem scanTargets_covers (entries : List (Str × Site)) : Covers entries (scanTargets entries) := by
  have hfold : ∀ (todo done : List (Str × Site)) (targets : List (Site × Path × Str)), Covers done targets →
      Covers (done ++ todo) (todo.foldl (fun ts hs => BareServer.addTarget ts hs.1 hs.2) targets) := by
    intro todo
    induction todo with
    | nil => intro done targets hc; rwa [List.append_nil]
    | cons e todo ih =>
      intro done targets hc
      have hrest := ih (done ++ [e]) _ (hc.addTarget e.1 e.2)
      rwa [List.append_assoc] at hrest
  exact hfold entries [] [] .nil

/-- In a table a target is an entry: its site under the least of the site's hosts. -/
structure Target (sites : Sites) (t : Site × Path × Str) : Prop where
  lookup : sites.lookup t.2.2 = some t.1
  root : t.1.root = some t.2.1
  least : ∀ host, sites.lookup host = some t.1 → ¬ host < t.2.2

/-- Sites of one identity are one. -/
def Sites.Shared (sites : Sites) : Prop :=
  ∀ host host' site site', sites.lookup host = some site → sites.lookup host' = some site' → site.id = site'.id → site = site'

theorem mem_scanTargets {sites : Sites} (hs : sites.Shared) {o : HashOrder} {t : Site × Path × Str}
    (ht : t ∈ scanTargets (iter sites o)) : Target sites t := by
  have hc := scanTargets_covers (iter sites o)
  obtain ⟨hroot, host', hh⟩ := hc.root t ht
  obtain ⟨site, hsite, hid⟩ := hc.host t ht
  have heq : site = t.1 := hs _ _ _ _ (mem_iter.1 hsite) (mem_iter.1 hh) hid
  subst heq
  refine ⟨mem_iter.1 hsite, hroot, fun host hl => hc.least t ht host t.1 (mem_iter.2 hl) ?_ rfl⟩
  rw [hroot]
  rfl

theorem scanTargets_hosts {sites : Sites} (hs : sites.Shared) (o : HashOrder) :
    ((scanTargets (iter sites o)).map fun t => t.2.2).Nodup := by
  have hids := (scanTargets_covers (iter sites o)).ids
  rw [List.nodup_map_iff_inj_on (List.Nodup.of_map _ hids)]
  intro t ht u hu heq
  have ht' := (mem_scanTargets hs ht).lookup
  rw [heq, (mem_scanTargets hs hu).lookup] at ht'
  refine List.inj_on_of_nodup_map hids ht hu ?_
  rw [Option.some.inj ht']

theorem find_host {targets : List (Site × Path × Str)} {host : Str} {t : Site × Path × Str}
    (hf : (targets.find? fun t => t.2.2 == host) = some t) : t ∈ targets ∧ t.2.2 = host :=
  ⟨List.mem_of_find?_eq_some hf, by simpa using List.find?_some hf⟩

theorem mem_orderTargets {o : HashOrder} {targets : List (Site × Path × Str)} {t : Site × Path × Str}
    (ht : t ∈ orderTargets o targets) : t ∈ targets := by
  obtain ⟨host, -, hf⟩ := List.mem_filterMap.1 ht
  exact (find_host hf).1

theorem orderTargets_hosts {o : HashOrder} {targets : List (Site × Path × Str)}
    (hn : (targets.map fun t => t.2.2).Nodup) : ((orderTargets o targets).map fun t => t.2.2).Nodup := by
  unfold orderTargets
  rw [List.map_filterMap]
  refine List.Nodup.filterMap ?_ ((o.perm _).nodup_iff.2 hn)
  intro a a' b hb hb'
  obtain ⟨t, ht, rfl⟩ := Option.map_eq_some_iff.1 hb
  obtain ⟨t', ht', heq⟩ := Option.map_eq_some_iff.1 hb'
  rw [← (find_host ht).2, ← (find_host ht').2, heq]

/-- What the content scan goes through. -/
structure ScanList (sites : Sites) (targets : List (Site × Path × Str)) : Prop where
  target : ∀ t ∈ targets, Target sites t
  hosts : (targets.map fun t => t.2.2).Nodup

theorem orderTargets_scanList {sites : Sites} (hs : sites.Shared) (o : HashOrder) :
    ScanList sites (orderTargets o (scanTargets (iter sites o))) :=
  ⟨fun _ ht => mem_scanTargets hs (mem_orderTargets ht), orderTargets_hosts (scanTargets_hosts hs o)⟩

/-! ## Tables -/

/-- A document root of a table. -/
def Served (sites : Sites) (root : Path) : Prop := ∃ host site, sites.lookup host = some site ∧ site.root = some root

/-- A table whose targets have keys of their own: one record for each site, and document roots as the file
system gives them. -/
structure Keyed (sites : Sites) : Prop where
  shared : sites.Shared
  noNul : ∀ root, Served sites root → (0 : UInt8) ∉ root

theorem Target.served {sites : Sites} {t : Site × Path × Str} (ht : Target sites t) : Served sites t.2.1 :=
  ⟨_, _, ht.lookup, ht.root⟩

/-- The key of a target. -/
def targetKey (t : Site × Path × Str) : Str := siteKey t.2.2 (display t.2.1)

/-- Two targets of one key have one host. -/
theorem Keyed.host_eq {sites : Sites} (hk : Keyed sites) {t t' : Site × Path × Str} (ht : Target sites t)
    (ht' : Target sites t') (hkey : targetKey t = targetKey t') : t.2.2 = t'.2.2 :=
  (siteKey_inj (nul_notMem_display (hk.noNul _ ht.served)) (nul_notMem_display (hk.noNul _ ht'.served)) hkey).1

/-- A site without its cache. -/
def Site.bare (s : Site) : Site := { s with cache := .empty }

/-- Two tables that differ in their caches only. -/
def Recached (a b : Sites) : Prop := ∀ host, (b.lookup host).map Site.bare = (a.lookup host).map Site.bare

theorem Recached.refl (a : Sites) : Recached a a := fun _ => rfl

theorem Recached.trans {a b d : Sites} (hab : Recached a b) (hbd : Recached b d) : Recached a d :=
  fun host => (hbd host).trans (hab host)

theorem recached_setCache (sites : Sites) (id : Nat) (cache : SiteCache) : Recached sites (sites.setCache id cache) := by
  intro host
  rw [Sites.setCache, Map.lookup_mapVal, Option.map_map]
  congr 1
  funext s
  simp only [Function.comp_apply]
  split <;> rfl

/-- An entry of a recached table, in the old one. -/
theorem Recached.old {a b : Sites} (hr : Recached a b) {host : Str} {x : Site} (hx : b.lookup host = some x) :
    ∃ y, a.lookup host = some y ∧ y.bare = x.bare := by
  have hmap := hr host
  rw [hx, Option.map_some] at hmap
  exact Option.map_eq_some_iff.1 hmap.symm

theorem Recached.new {a b : Sites} (hr : Recached a b) {host : Str} {y : Site} (hy : a.lookup host = some y) :
    ∃ x, b.lookup host = some x ∧ x.bare = y.bare := by
  have hmap := hr host
  rw [hy, Option.map_some] at hmap
  exact Option.map_eq_some_iff.1 hmap

theorem Site.bare_id {x y : Site} (h : x.bare = y.bare) : x.id = y.id := by
  simpa [Site.bare] using congrArg Site.id h

theorem Site.bare_root {x y : Site} (h : x.bare = y.bare) : x.root = y.root := by
  simpa [Site.bare] using congrArg Site.root h

theorem Site.bare_policy {x y : Site} (h : x.bare = y.bare) : x.policy = y.policy := by
  simpa [Site.bare] using congrArg Site.policy h

theorem Recached.served {a b : Sites} (hr : Recached a b) {root : Path} (hs : Served b root) : Served a root := by
  obtain ⟨host, x, hx, hroot⟩ := hs
  obtain ⟨y, hy, hbare⟩ := hr.old hx
  exact ⟨host, y, hy, (Site.bare_root hbare).trans hroot⟩

/-- A target stays one when caches change. -/
theorem Target.recached {a b : Sites} {t : Site × Path × Str} (ht : Target a t) (hr : Recached a b) (hs : a.Shared) :
    ∃ x, Target b (x, t.2.1, t.2.2) ∧ x.bare = t.1.bare := by
  obtain ⟨x, hx, hbare⟩ := hr.new ht.lookup
  refine ⟨x, ⟨hx, (Site.bare_root hbare).trans ht.root, fun host hl => ?_⟩, hbare⟩
  obtain ⟨y, hy, hybare⟩ := hr.old hl
  refine ht.least host ?_
  rw [hy, hs host t.2.2 y t.1 hy ht.lookup (Site.bare_id (hybare.trans hbare))]

theorem Sites.Shared.setCache {sites : Sites} (hs : sites.Shared) (id : Nat) (cache : SiteCache) :
    (sites.setCache id cache).Shared := by
  intro host host' x x' hx hx' hid
  simp only [Sites.setCache, Map.lookup_mapVal, Option.map_eq_some_iff] at hx hx'
  obtain ⟨y, hy, rfl⟩ := hx
  obtain ⟨y', hy', rfl⟩ := hx'
  have hids : ∀ s : Site, (if s.id == id then { s with cache } else s).id = s.id := by
    intro s
    split <;> rfl
  rw [hids, hids] at hid
  rw [hs host host' y y' hy hy' hid]

theorem Keyed.setCache {sites : Sites} (hk : Keyed sites) (id : Nat) (cache : SiteCache) :
    Keyed (sites.setCache id cache) := by
  have hr := recached_setCache sites id cache
  exact ⟨hk.shared.setCache id cache, fun root hs => hk.noNul root (hr.served hs)⟩

/-- The targets of a table with one new cache: the one rebuilt, under its key, and the others as they were. -/
theorem Target.setCache_cases {sites : Sites} (hs : sites.Shared) {t : Site × Path × Str} (ht : Target sites t)
    {cache : SiteCache} {t' : Site × Path × Str} (ht' : Target (sites.setCache t.1.id cache) t') :
    t' = ({ t.1 with cache }, t.2) ∨ Target sites t' ∧ t'.2.2 ≠ t.2.2 := by
  obtain ⟨site', root', host'⟩ := t'
  obtain ⟨site, root, host⟩ := t
  have hlook := ht'.lookup
  simp only [Sites.setCache, Map.lookup_mapVal, Option.map_eq_some_iff] at hlook
  obtain ⟨y, hy, hf⟩ := hlook
  by_cases hid : y.id = site.id
  · -- both hosts are the least of one site
    have hyt : y = site := hs _ _ _ _ hy ht.lookup hid
    subst hyt
    simp only [beq_self_eq_true, if_true] at hf
    subst hf
    have hle : ¬ host < host' := ht'.least host (by simp [Sites.setCache, ht.lookup])
    have hge : ¬ host' < host := ht.least host' hy
    have hhost : host' = host := List.le_antisymm hle hge
    have hroot : root' = root := Option.some.inj (ht'.root.symm.trans ht.root)
    rw [hhost, hroot]
    exact .inl rfl
  · have hfy : site' = y := by
      rw [← hf]
      simp [hid]
    subst hfy
    refine .inr ⟨⟨hy, ht'.root, fun k hk => ht'.least k (by simp [Sites.setCache, hk, hid])⟩, fun hhost => hid ?_⟩
    have hy' : sites.lookup host' = some site' := hy
    have ht'' := ht.lookup
    simp only at hhost ht''
    rw [hhost, ht''] at hy'
    rw [Option.some.inj hy']

/-- The roots of a table in any order, for the signatures of a new runtime. -/
theorem Keyed.rooted {sites : Sites} (hk : Keyed sites) (order : HashOrder) :
    (∀ hr ∈ rooted (iter sites order), (0 : UInt8) ∉ hr.2) ∧
      ∀ t, Target sites t → (0 : UInt8) ∉ t.2.1 ∧ (t.2.2, t.2.1) ∈ BareServer.rooted (iter sites order) := by
  constructor
  · rintro ⟨host, root⟩ hmem
    obtain ⟨site, hsite, hroot⟩ := mem_rooted.1 hmem
    exact hk.noNul root ⟨host, site, mem_iter.1 hsite, hroot⟩
  · intro t ht
    exact ⟨hk.noNul _ ht.served, mem_rooted.2 ⟨t.1, mem_iter.2 ht.lookup, ht.root⟩⟩

/-- A table whose sites come from builds. -/
theorem TableOf.keyed {h : Nat → World} {c : Crates} {a k : Nat} {blocks : List SiteConfig} {sites : Sites}
    (ht : TableOf (SiteRead h c a · · k) blocks sites) : Keyed sites := by
  refine ⟨ht.same, ?_⟩
  rintro root ⟨host, site, hl, hroot⟩
  obtain ⟨s, -, -, hread⟩ := ht.site host site hl
  obtain ⟨r, -, l, b, -, -, -, hcan, -⟩ := hread root hroot
  exact (h l).noNul r root hcan

end BareServer
