/-
The order of the sites in a config, and the memory budget. Nothing else that a build does depends on the
order; the budget does. In disk mode what the files of a site keep is charged but only tested with the next
site, so the verdict depends on which site is last; in memory mode a file that asks for more than it keeps
passes or not by what stands before it.
-/
import BareServer.Watch.Ceiling

namespace BareServer

open BareServer.Lib

/-! ## One site, wherever it stands -/

/-- Creating a snapshot and writing to it go the same way under every build number. -/
structure SameOps (w : World) (cfg : Config) : Prop where
  mkdir : ∀ s ∈ cfg.sites, ∀ n m,
    w.mkdir (buildDirPath (sitePolicy cfg s) n) = w.mkdir (buildDirPath (sitePolicy cfg s) m)
  writes : ∀ s ∈ cfg.sites, ∀ n m ns url,
    w.writes (snapshotPath (buildDirPath (sitePolicy cfg s) n) ns url) =
      w.writes (snapshotPath (buildDirPath (sitePolicy cfg s) m) ns url)

section

variable {w : World} {c : Compressors} {cfg : Config} {s : SiteConfig}

/-- What a file keeps on disk does not depend on where its bodies stand. -/
theorem kept_disk {env : BuildEnv} {p : Policy} {f : Found} {bd bd' : Path}
    (hwrites : ∀ ns url, env.writes (snapshotPath bd ns url) = env.writes (snapshotPath bd' ns url)) :
    f.kept env p (some bd) = f.kept env p (some bd') := by
  unfold Found.kept Found.entry
  cases f.usable p with
  | none => rfl
  | some data =>
    have hcan : canSnapshot env (mimeFor f.url) data p bd f.url = canSnapshot env (mimeFor f.url) data p bd' f.url := by
      simp only [canSnapshot, hwrites]
    simp only [Option.bind_some, entryFor, hcan]
    split
    · simp only [Option.map_some, Option.getD_some, Cached.retainedBytes, diskEntry, diskVariant]
      cases (compressVariants env.compressors (mimeFor f.url) data p).1 <;>
        cases (compressVariants env.compressors (mimeFor f.url) data p).2 <;> rfl
    · rfl

theorem fileCharges_disk {env : BuildEnv} {p : Policy} {fs : List Found} {bd bd' : Path}
    (hwrites : ∀ ns url, env.writes (snapshotPath bd ns url) = env.writes (snapshotPath bd' ns url)) :
    fileCharges env p (some bd) fs = fileCharges env p (some bd') fs := by
  refine List.map_congr_left fun f _ => ?_
  unfold Found.charge
  rw [kept_disk hwrites, if_neg (fun h => by cases h.1), if_neg (fun h => by cases h.1)]

theorem buildVisit_same (hops : SameOps w cfg) (hs : s ∈ cfg.sites) (seq seq' : Nat) (root : Node) :
    buildVisit ⟨c, w.mkdir, w.writes⟩ (sitePolicy cfg s) seq root =
      buildVisit ⟨c, w.mkdir, w.writes⟩ (sitePolicy cfg s) seq' root := by
  unfold buildVisit
  simp only [hops.mkdir s hs seq seq']

theorem buildCharges_same (hops : SameOps w cfg) (hs : s ∈ cfg.sites) (seq seq' : Nat) (fs : List Found) :
    fileCharges ⟨c, w.mkdir, w.writes⟩ (sitePolicy cfg s) (snapshotDir (sitePolicy cfg s) seq) fs =
      fileCharges ⟨c, w.mkdir, w.writes⟩ (sitePolicy cfg s) (snapshotDir (sitePolicy cfg s) seq') fs := by
  unfold snapshotDir
  cases (sitePolicy cfg s).storage with
  | memory => rfl
  | disk => exact fileCharges_disk (hops.writes s hs seq seq')

/-- In a world that stays, a build meets a site alike wherever it stands. -/
theorem meetSite_same (hops : SameOps w cfg) (hs : s ∈ cfg.sites) (seq i : Nat) :
    (meetSite (fun _ => w) c cfg s seq i).visit = (meetSite (fun _ => w) c cfg s 0 0).visit ∧
      (meetSite (fun _ => w) c cfg s seq i).charges cfg = (meetSite (fun _ => w) c cfg s 0 0).charges cfg := by
  have hvisit : (meetSite (fun _ => w) c cfg s seq i).visit = (meetSite (fun _ => w) c cfg s 0 0).visit ∧
      (meetSite (fun _ => w) c cfg s seq i).contentCharges cfg = (meetSite (fun _ => w) c cfg s 0 0).contentCharges cfg := by
    unfold meetSite
    cases s.root with
    | none => exact ⟨rfl, rfl⟩
    | some r =>
      simp only
      cases w.canonicalize r with
      | error e => exact ⟨rfl, rfl⟩
      | ok root =>
        simp only
        split
        · refine ⟨buildVisit_same hops hs seq 0 _, ?_⟩
          unfold Met.contentCharges Met.policy
          simp only
          rw [buildVisit_same hops hs seq 0 (w.node root)]
          exact buildCharges_same hops hs seq 0 _
        · exact ⟨rfl, rfl⟩
  refine ⟨hvisit.1, ?_⟩
  rw [Met.charges, Met.charges, hvisit.2, Met.errorBytes, Met.errorBytes, Met.policy, Met.policy, meetSite_block,
    meetSite_block]

/-! ## All sites, in any order -/

/-- Nothing but the budget refuses the sites when nothing refuses one of them and no host comes twice. -/
theorem meetSites_whole_iff (hops : SameOps w cfg) : ∀ {todo : List SiteConfig} {taken : List Str} {seq i : Nat},
    (∀ s ∈ todo, s ∈ cfg.sites) → taken.Nodup →
    ((meetSites (fun _ => w) c cfg taken seq i todo).whole = true ↔
      (∀ s ∈ todo, (meetSite (fun _ => w) c cfg s 0 0).visit.whole = true) ∧ (taken ++ todo.flatMap (·.hosts)).Nodup)
  | [], taken, _, _, _, hn => by
    rw [List.flatMap_nil, List.append_nil]
    constructor
    · exact fun _ => ⟨fun s hs => (by cases hs), hn⟩
    · exact fun _ => rfl
  | s :: todo, taken, seq, i, hmem, hn => by
    have hs := hmem s List.mem_cons_self
    rw [meetSites, List.flatMap_cons, ← List.append_assoc, List.forall_mem_cons, ← (meetSite_same hops hs seq i).1]
    by_cases hgo : (meetSite (fun _ => w) c cfg s seq i).visit.whole = true ∧ (taken ++ s.hosts).Nodup
    · rw [if_pos hgo, and_iff_right hgo.1]
      exact meetSites_whole_iff hops (fun x hx => hmem x (List.mem_cons_of_mem _ hx)) hgo.2
    · rw [if_neg hgo]
      constructor
      · intro hfalse
        cases hfalse
      · rintro ⟨⟨hw, -⟩, hnodup⟩
        exact absurd ⟨hw, (List.nodup_append.1 hnodup).1⟩ hgo

/-- What whole sites are charged for altogether. -/
theorem kept_meetSites (hops : SameOps w cfg) : ∀ {todo : List SiteConfig} {taken : List Str} {seq i : Nat},
    (∀ s ∈ todo, s ∈ cfg.sites) → (meetSites (fun _ => w) c cfg taken seq i todo).whole = true →
    Charge.kept ((meetSites (fun _ => w) c cfg taken seq i todo).charges cfg) =
      (todo.map fun s => Charge.kept ((meetSite (fun _ => w) c cfg s 0 0).charges cfg)).sum
  | [], _, _, _, _, _ => rfl
  | s :: todo, taken, seq, i, hmem, hw => by
    have hs := hmem s List.mem_cons_self
    rw [meetSites] at hw ⊢
    by_cases hgo : (meetSite (fun _ => w) c cfg s seq i).visit.whole = true ∧ (taken ++ s.hosts).Nodup
    · simp only [if_pos hgo] at hw ⊢
      have hrest := kept_meetSites hops (fun x hx => hmem x (List.mem_cons_of_mem _ hx)) hw
      rw [Meeting.charges] at hrest ⊢
      rw [List.flatMap_cons, Charge.kept_append, hrest, (meetSite_same hops hs seq i).2, List.map_cons, List.sum_cons]
    · simp only [if_neg hgo] at hw
      cases hw

/-- The sites of a config in another order. -/
def Config.reordered (cfg : Config) (sites : List SiteConfig) : Config := { cfg with sites }

/-- A build reads no more of the config than each site's block and the storage. -/
theorem meetSites_reordered (h : Nat → World) (sites : List SiteConfig) : ∀ (todo : List SiteConfig) (taken : List Str)
    (seq i : Nat), meetSites h c (cfg.reordered sites) taken seq i todo = meetSites h c cfg taken seq i todo
  | [], _, _, _ => rfl
  | s :: todo, taken, seq, i => by
    rw [meetSites, meetSites, show meetSite h c (cfg.reordered sites) s seq i = meetSite h c cfg s seq i from rfl,
      meetSites_reordered h sites todo]

/-- Two orders are refused alike by everything but the budget, and charged for the same bytes. -/
theorem meeting_reordered (hops : SameOps w cfg) {sites : List SiteConfig} (hperm : cfg.sites.Perm sites)
    (seq seq' i i' : Nat) :
    ((meeting (fun _ => w) c cfg seq i).whole = true ↔
      (meeting (fun _ => w) c (cfg.reordered sites) seq' i').whole = true) ∧
    ((meeting (fun _ => w) c cfg seq i).whole = true →
      Charge.kept ((meeting (fun _ => w) c (cfg.reordered sites) seq' i').charges cfg) =
        Charge.kept ((meeting (fun _ => w) c cfg seq i).charges cfg)) := by
  have hmem : ∀ s ∈ sites, s ∈ cfg.sites := fun s hs => hperm.mem_iff.2 hs
  have hleft := @meetSites_whole_iff w c cfg hops cfg.sites [] seq i (fun s hs => hs) List.nodup_nil
  have hright := @meetSites_whole_iff w c cfg hops sites [] seq' i' hmem List.nodup_nil
  have hsame : (meeting (fun _ => w) c cfg seq i).whole = true ↔
      (meeting (fun _ => w) c (cfg.reordered sites) seq' i').whole = true := by
    rw [meeting, meeting, meetSites_reordered, hleft]
    refine Iff.trans ?_ hright.symm
    refine and_congr ⟨fun h s hs => h s (hmem s hs), fun h s hs => h s (hperm.mem_iff.1 hs)⟩ ?_
    exact (hperm.flatMap_right _).nodup_iff
  refine ⟨hsame, fun hw => ?_⟩
  have hw' := hsame.1 hw
  rw [meeting] at hw hw'
  rw [meetSites_reordered] at hw'
  rw [meeting, meeting, meetSites_reordered, kept_meetSites hops (fun s hs => hs) hw]
  exact (kept_meetSites hops hmem hw').trans ((hperm.map _).sum_eq).symm

end

/-! ## When the order does not matter -/

/-- The order of the sites does not show, and what is built keeps to the budget. In disk mode all but the content of the
last site fits in either order and the whole table is within the budget, or it does not fit in either. In memory mode
all of it together does not fit, or the most that a file which asks for more than it keeps comes to where it stands
fits in either order, or in neither. -/
def OrderBlind (cfg : Config) (budget : Nat) (k k' : Meeting) : Prop :=
  let charged := serverBytes cfg + Charge.kept (k.charges cfg)
  let asked (k : Meeting) := Charge.asked (serverBytes cfg) (k.charges cfg)
  cfg.sites = [] ∧ serverBytes cfg ≤ budget ∨ cfg.sites ≠ [] ∧
    match cfg.storage with
    | .disk =>
      charged ≤ budget + min (k.lastContent cfg) (k'.lastContent cfg) ∧ serverBytes cfg + k.resident cfg ≤ budget ∨
        budget + max (k.lastContent cfg) (k'.lastContent cfg) < charged
    | .memory => budget < charged ∨ max (asked k) (asked k') ≤ budget ∨ budget < min (asked k) (asked k')

section

variable {w : World} {c : Compressors} {cfg : Config} {max seq seq' i i' : Nat} {sites : List SiteConfig}

/-- The order does not matter exactly when both orders are admitted alike and the admitted one keeps to the budget. -/
theorem orderBlind_iff {k k' : Meeting} (hkept : Charge.kept (k'.charges cfg) = Charge.kept (k.charges cfg))
    (hne : cfg.sites ≠ [] → k.sites ≠ [] ∧ k'.sites ≠ []) (hnil : cfg.sites = [] → k.sites = [] ∧ k'.sites = []) :
    (Charge.Admits max (serverBytes cfg) (k.charges cfg) ↔ Charge.Admits max (serverBytes cfg) (k'.charges cfg)) ∧
      (Charge.Admits max (serverBytes cfg) (k.charges cfg) → serverBytes cfg + k.resident cfg ≤ max) ↔
      OrderBlind cfg max k k' := by
  unfold OrderBlind
  dsimp only
  by_cases hsites : cfg.sites = []
  · -- nothing is tested
    obtain ⟨hk, hk'⟩ := hnil hsites
    have hadm : Charge.Admits max (serverBytes cfg) (k.charges cfg) := by
      rw [Meeting.charges, hk]
      trivial
    have hadm' : Charge.Admits max (serverBytes cfg) (k'.charges cfg) := by
      rw [Meeting.charges, hk']
      trivial
    have hres : k.resident cfg = 0 := by
      rw [Meeting.resident, hk]
      rfl
    rw [hres, Nat.add_zero, or_iff_left (fun h => h.1 hsites), and_iff_right hsites,
      and_iff_right (iff_of_true hadm hadm'), forall_prop_of_true hadm]
  · obtain ⟨hk, hk'⟩ := hne hsites
    rw [or_iff_right (fun h => hsites h.1), and_iff_right hsites]
    have hres := k.resident_le cfg
    cases hst : cfg.storage with
    | disk =>
      have hadm := @Meeting.admits_disk cfg max (serverBytes cfg) hst k hk
      have hadm' := @Meeting.admits_disk cfg max (serverBytes cfg) hst k' hk'
      rw [hkept] at hadm'
      rw [hadm, hadm']
      omega
    | memory =>
      have hadm := @Meeting.admits_asked cfg max (serverBytes cfg) hst k hk
      have hadm' := @Meeting.admits_asked cfg max (serverBytes cfg) hst k' hk'
      rw [hkept] at hadm'
      rw [hadm, hadm']
      simp only
      omega

/-- In a world that stays, where nothing depends on the build number: two orders of the sites of a config are both
built or both refused, and a table that is built keeps to the budget, exactly when something else refuses the sites
or the budget does not see the order. -/
theorem site_order (c : Compressors) (w : World) (cfg : Config) (sites : List SiteConfig) (max seq seq' i i' : Nat)
    (hmax : ∀ s ∈ cfg.sites, s.tuning.maxTotalBytes = max) (hops : SameOps w cfg) (hperm : cfg.sites.Perm sites) :
    ((∃ v, builtVhosts (fun _ => w) c cfg seq i = .ok v) ↔
        ∃ v, builtVhosts (fun _ => w) c (cfg.reordered sites) seq' i' = .ok v) ∧
      (∀ v, builtVhosts (fun _ => w) c cfg seq i = .ok v → v.resident ≤ max) ↔
    ((meeting (fun _ => w) c cfg seq i).whole = false ∨ OrderBlind cfg max (meeting (fun _ => w) c cfg seq i)
      (meeting (fun _ => w) c (cfg.reordered sites) seq' i')) := by
  have hmax' : ∀ s ∈ (cfg.reordered sites).sites, s.tuning.maxTotalBytes = max := fun s hs => hmax s (hperm.mem_iff.2 hs)
  obtain ⟨hwhole, hkept⟩ := @meeting_reordered w c cfg hops sites hperm seq seq' i i'
  have hleft := @builtVhosts_iff (fun _ => w) c cfg max seq i hmax
  have hright := @builtVhosts_iff (fun _ => w) c (cfg.reordered sites) max seq' i' hmax'
  by_cases hw : (meeting (fun _ => w) c cfg seq i).whole = true
  · -- only the budget is left to refuse either order
    have hw' := hwhole.1 hw
    rw [and_iff_right hw] at hleft
    rw [and_iff_right hw'] at hright
    have hres : (∀ v, builtVhosts (fun _ => w) c cfg seq i = .ok v → v.resident ≤ max) ↔
        (Charge.Admits max (serverBytes cfg) ((meeting (fun _ => w) c cfg seq i).charges cfg) →
          serverBytes cfg + (meeting (fun _ => w) c cfg seq i).resident cfg ≤ max) := by
      constructor
      · intro hall hadm
        obtain ⟨v, hv⟩ := hleft.2 hadm
        rw [← builtVhosts_resident hmax hv]
        exact hall v hv
      · intro himp v hv
        rw [builtVhosts_resident hmax hv]
        exact himp (hleft.1 ⟨v, hv⟩)
    rw [hleft, hright, hres, or_iff_right (by simp [hw])]
    refine orderBlind_iff (hkept hw) (fun hne => ⟨meeting_nonempty hne, meeting_nonempty fun hnil => ?_⟩) fun hnil => ?_
    · change sites = [] at hnil
      rw [hnil] at hperm
      exact hne hperm.eq_nil
    · have hnil' : sites = [] := by
        rw [hnil] at hperm
        exact hperm.nil_eq.symm
      rw [meeting, meeting, hnil, show (cfg.reordered sites).sites = [] from hnil']
      exact ⟨rfl, rfl⟩
  · -- something else refuses both
    have hw' : ¬ (meeting (fun _ => w) c (cfg.reordered sites) seq' i').whole = true := fun h => hw (hwhole.2 h)
    have hno : ¬ ∃ v, builtVhosts (fun _ => w) c cfg seq i = .ok v := fun hv => hw (hleft.1 hv).1
    have hno' : ¬ ∃ v, builtVhosts (fun _ => w) c (cfg.reordered sites) seq' i' = .ok v := fun hv => hw' (hright.1 hv).1
    constructor
    · exact fun _ => .inl (by simpa using hw)
    · exact fun _ => ⟨⟨fun hv => absurd hv hno, fun hv => absurd hv hno'⟩, fun v hv => absurd ⟨v, hv⟩ hno⟩

end

/-! ## Two sites -/

/-- A config on disk under some budget: a site with a document root, and one that redirects. -/
def storedConf (budget : Str) : Str :=
  str "listen = [::]:443\nstorage = disk\ndisk_cache = /d\nmax_total_bytes = " ++ budget ++
    str "\nsite a.example \x7b\n cert = /c\n key = /k\n root = /www\n\x7d\n" ++
    str "site b.example \x7b\n cert = /c\n key = /k\n redirect /old/* -> /new/$1\n\x7d\n"

/-- A machine whose document root has one file. -/
def oneFileWorld : World := .rootedAt (oneFile 1 (some [65]))

/-- A budget with room for both sites, in either order. -/
theorem site_order_roomy : ∃ cfg, parseConfig (storedConf (str "1M")) = .ok cfg ∧
    ((∃ v, builtVhosts (fun _ => oneFileWorld) anyPem.compressors cfg 0 0 = .ok v) ↔
      ∃ v, builtVhosts (fun _ => oneFileWorld) anyPem.compressors (cfg.reordered cfg.sites.reverse) 0 0 = .ok v) ∧
    ∀ v, builtVhosts (fun _ => oneFileWorld) anyPem.compressors cfg 0 0 = .ok v → v.resident ≤ 1048576 := by
  have hcheck : (parseConfig (storedConf (str "1M"))).toOption.any (fun cfg => cfg.storage == .disk && !cfg.sites.isEmpty &&
      decide (serverBytes cfg +
        Charge.kept ((meeting (fun _ => oneFileWorld) anyPem.compressors cfg 0 0).charges cfg) ≤ 1048576) &&
      cfg.sites.all fun s => s.tuning.maxTotalBytes == 1048576) = true := by
    decide +kernel
  obtain ⟨cfg, hcfg, hok⟩ := ok_of_any hcheck
  simp only [Bool.and_eq_true, beq_iff_eq, decide_eq_true_eq, List.all_eq_true, Bool.not_eq_true',
    List.isEmpty_eq_false_iff] at hok
  obtain ⟨⟨⟨hdisk, hne⟩, hle⟩, hmax⟩ := hok
  have hblind : OrderBlind cfg 1048576 (meeting (fun _ => oneFileWorld) anyPem.compressors cfg 0 0)
      (meeting (fun _ => oneFileWorld) anyPem.compressors (cfg.reordered cfg.sites.reverse) 0 0) := by
    -- there is room for all that is charged
    have hres := (meeting (fun _ => oneFileWorld) anyPem.compressors cfg 0 0).resident_le cfg
    unfold OrderBlind
    rw [hdisk]
    exact .inr ⟨hne, .inl ⟨by omega, by omega⟩⟩
  exact ⟨cfg, hcfg, (site_order anyPem.compressors oneFileWorld cfg cfg.sites.reverse 1048576 0 0 0 0 hmax
    ⟨fun _ _ _ _ => rfl, fun _ _ _ _ _ _ => rfl⟩ (List.reverse_perm _).symm).2 (.inr hblind)⟩

/-- A budget for the error pages alone: with the redirecting site last the header bytes of the file are found out,
with the document root last they are not, and the table keeps more than its budget. -/
theorem last_site_unweighed : ∃ cfg, parseConfig (storedConf (str "17070")) = .ok cfg ∧
    (∀ s ∈ cfg.sites, s.tuning.maxTotalBytes = 17070) ∧ SameOps oneFileWorld cfg ∧ cfg.sites.Perm cfg.sites.reverse ∧
    ¬ ((∃ v, builtVhosts (fun _ => oneFileWorld) anyPem.compressors cfg 0 0 = .ok v) ↔
      ∃ v, builtVhosts (fun _ => oneFileWorld) anyPem.compressors (cfg.reordered cfg.sites.reverse) 0 0 = .ok v) ∧
    ¬ ∀ v, builtVhosts (fun _ => oneFileWorld) anyPem.compressors (cfg.reordered cfg.sites.reverse) 0 0 = .ok v →
      v.resident ≤ 17070 := by
  have hcheck : (parseConfig (storedConf (str "17070"))).toOption.any (fun cfg =>
      !decide (Charge.Admits 17070 (serverBytes cfg)
        ((meeting (fun _ => oneFileWorld) anyPem.compressors cfg 0 0).charges cfg)) &&
      decide (Charge.Admits 17070 (serverBytes (cfg.reordered cfg.sites.reverse))
        ((meeting (fun _ => oneFileWorld) anyPem.compressors (cfg.reordered cfg.sites.reverse) 0 0).charges
          (cfg.reordered cfg.sites.reverse))) &&
      (meeting (fun _ => oneFileWorld) anyPem.compressors (cfg.reordered cfg.sites.reverse) 0 0).whole &&
      decide (17070 < serverBytes (cfg.reordered cfg.sites.reverse) +
        (meeting (fun _ => oneFileWorld) anyPem.compressors (cfg.reordered cfg.sites.reverse) 0 0).resident
          (cfg.reordered cfg.sites.reverse)) &&
      cfg.sites.all fun s => s.tuning.maxTotalBytes == 17070) = true := by
    decide +kernel
  obtain ⟨cfg, hcfg, hok⟩ := ok_of_any hcheck
  simp only [Bool.and_eq_true, beq_iff_eq, Bool.not_eq_true', decide_eq_false_iff_not, decide_eq_true_eq,
    List.all_eq_true] at hok
  obtain ⟨⟨⟨⟨hno, hadm⟩, hwhole⟩, hlt⟩, hmax⟩ := hok
  have hmax' : ∀ s ∈ (cfg.reordered cfg.sites.reverse).sites, s.tuning.maxTotalBytes = 17070 :=
    fun s hs => hmax s (List.mem_reverse.1 hs)
  obtain ⟨v, hv⟩ := (builtVhosts_iff hmax').2 ⟨hwhole, hadm⟩
  refine ⟨cfg, hcfg, hmax, ⟨fun _ _ _ _ => rfl, fun _ _ _ _ _ _ => rfl⟩, (List.reverse_perm _).symm, ?_, ?_⟩
  · intro hiff
    exact hno ((builtVhosts_iff hmax).1 (hiff.2 ⟨v, hv⟩)).2
  · intro hall
    have hle := hall v hv
    rw [builtVhosts_resident hmax' hv] at hle
    omega

end BareServer
