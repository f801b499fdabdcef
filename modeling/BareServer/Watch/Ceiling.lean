/-
The memory ceiling. In memory mode a build is refused for the budget exactly when the error pages and the
eligible files of its sites do not fit, or a file that cannot be read would not; and from boot on, whatever
the watcher rebuilds or reloads, what the live table keeps is within the live budget.
-/
import BareServer.Watch.Budget
import BareServer.Watch.Runtime

namespace BareServer

open BareServer.Lib

/-! ## One build -/

/-- The error pages of the sites met, and what each of their files retains. -/
def Meeting.demand (cfg : Config) (k : Meeting) : Nat :=
  (k.sites.map fun m => m.errorBytes cfg + (m.visit.files.map (·.kept m.env (m.policy cfg) none)).sum).sum

/-- A file that cannot be read, within the size limit, would not fit by its size where the walk comes to it. -/
def Meeting.UnreadMisfit (cfg : Config) (max total : Nat) (k : Meeting) : Prop :=
  ∃ pre m post fpre f fpost, k.sites = pre ++ m :: post ∧ m.visit.files = fpre ++ f :: fpost ∧ f.data = none ∧
    f.info.size ≤ (m.policy cfg).t.maxFileSize ∧
    max < total + Meeting.demand cfg ⟨pre, true⟩ + m.errorBytes cfg +
      (fpre.map (·.kept m.env (m.policy cfg) none)).sum + f.info.size

/-- The files read had the size that `stat` gave. -/
def Meeting.SizesKept (k : Meeting) : Prop :=
  ∀ m ∈ k.sites, ∀ f ∈ m.visit.files, ∀ data, f.data = some data → data.length = f.info.size

section

variable {h : Nat → World} {c : Compressors} {cfg : Config} {max total seq i : Nat}

theorem kept_fileCharges (env : BuildEnv) (p : Policy) (buildDir : Option Path) (fs : List Found) :
    Charge.kept (fileCharges env p buildDir fs) = (fs.map (·.kept env p buildDir)).sum := by
  rw [Charge.kept, fileCharges, List.map_map]
  rfl

theorem Meeting.kept_charges (hmem : cfg.storage = .memory) (k : Meeting) : Charge.kept (k.charges cfg) = k.demand cfg := by
  rw [charges, Charge.kept_flatMap, demand]
  refine congrArg List.sum (List.map_congr_left fun m _ => ?_)
  rw [Met.kept_charges, Met.contentCharges, snapshotDir_memory hmem, kept_fileCharges]

/-- An entry in memory holds its source. -/
theorem length_le_kept {env : BuildEnv} {p : Policy} {f : Found} {data : Bytes} (hu : f.usable p = some data) :
    data.length ≤ f.kept env p none := by
  have hkept : f.kept env p none =
      Cached.retainedBytes (.mem (makeCached env.compressors f.url (mimeFor f.url) data p)) := by
    rw [Found.kept, Found.entry, hu]
    rfl
  rw [hkept]
  simp only [Cached.retainedBytes, makeCached, buildVariant, List.length_append]
  omega

/-- A file that asks for more than it keeps is one that cannot be read. -/
theorem unread_of_exceeding {env : BuildEnv} {p : Policy} {f : Found} (hsize : f.info.size ≤ p.t.maxFileSize)
    (hkept : ∀ data, f.data = some data → data.length = f.info.size) (hlt : f.kept env p none < f.info.size) :
    f.data = none := by
  cases hd : f.data with
  | none => rfl
  | some data =>
    have hle := @length_le_kept env p f data (by rw [Found.usable, if_pos hsize, hd])
    have := hkept data hd
    omega

theorem kept_of_unread {env : BuildEnv} {p : Policy} {buildDir : Option Path} {f : Found} (hd : f.data = none) :
    f.kept env p buildDir = 0 := by
  refine Found.kept_of_unusable ?_
  rw [Found.usable, hd]
  split <;> rfl

/-- Below the ceiling, only a file that cannot be read is refused. -/
theorem Meeting.roomy_iff (hmem : cfg.storage = .memory) {k : Meeting} (hsizes : k.SizesKept)
    (hle : total + k.demand cfg ≤ max) : k.Roomy cfg max total ↔ ¬ k.UnreadMisfit cfg max total := by
  constructor
  · rintro hroomy ⟨pre, m, post, fpre, f, fpost, hsites, hfiles, hd, hsize, hlt⟩
    have hpre := Meeting.kept_charges hmem ⟨pre, true⟩
    simp only [charges] at hpre
    rcases Nat.eq_zero_or_pos f.info.size with hzero | hpos
    · -- an empty file asks for nothing more than what was admitted before it
      rw [← kept_charges hmem, charges, hsites, List.flatMap_append, List.flatMap_cons, Charge.kept_append,
        Charge.kept_append, Met.kept_charges, Met.contentCharges, snapshotDir_memory hmem, kept_fileCharges, hfiles,
        List.map_append, List.sum_append, hpre] at hle
      omega
    · have := hroomy pre m post fpre f fpost hsites hfiles hsize (by rw [kept_of_unread hd]; exact hpos)
      rw [hpre, kept_fileCharges] at this
      omega
  · intro hno pre m post fpre f fpost hsites hfiles hsize hlt
    have hpre := Meeting.kept_charges hmem ⟨pre, true⟩
    simp only [charges] at hpre
    have hd := unread_of_exceeding hsize
      (hsizes m (by rw [hsites]; simp) f (by rw [hfiles]; simp)) hlt
    rw [hpre, kept_fileCharges]
    by_contra hover
    exact hno ⟨pre, m, post, fpre, f, fpost, hsites, hfiles, hd, hsize, by omega⟩

/-- Nothing but the budget refuses a build whose meeting is whole, and then all sites are met. -/
theorem meetSites_whole : ∀ {todo : List SiteConfig} {taken : List Str} {seq i : Nat},
    (meetSites h c cfg taken seq i todo).whole = true → (meetSites h c cfg taken seq i todo).sites.map (·.block) = todo
  | [], _, _, _, _ => rfl
  | s :: todo, taken, seq, i, hw => by
    rw [meetSites] at hw ⊢
    by_cases hgo : (meetSite h c cfg s seq i).visit.whole = true ∧ (taken ++ s.hosts).Nodup
    · simp only [if_pos hgo] at hw ⊢
      rw [List.map_cons, meetSite_block, meetSites_whole hw]
    · simp only [if_neg hgo] at hw
      cases hw

/-- In memory mode a build comes to a budget test that fails exactly when what it meets does not fit. -/
theorem overBudget_memory (hb : cfg.Budget max) (hmem : cfg.storage = .memory)
    (hsizes : (meeting h c cfg seq i).SizesKept) : OverBudget h c cfg ∅ 0 (serverBytes cfg) seq i cfg.sites ↔
      max < serverBytes cfg + (meeting h c cfg seq i).demand cfg ∨
        (meeting h c cfg seq i).UnreadMisfit cfg max (serverBytes cfg) := by
  have hadm := @Meeting.admits_memory cfg max (serverBytes cfg) hmem (meeting h c cfg seq i) (meeting_nonempty hb.nonempty)
  rw [Meeting.kept_charges hmem] at hadm
  rw [meeting_overBudget hb.shared, hadm]
  by_cases hle : serverBytes cfg + (meeting h c cfg seq i).demand cfg ≤ max
  · rw [and_iff_right hle, Meeting.roomy_iff hmem hsizes hle, not_not]
    constructor
    · exact .inr
    · rintro (hlt | hmis)
      · omega
      · exact hmis
  · constructor
    · exact fun _ => .inl (by omega)
    · exact fun _ hboth => hle hboth.1

end

/-! ## The live table -/

/-- In memory mode the live table keeps no more than the live budget. -/
def WithinBudget (l : Live) : Prop :=
  l.vhostsFrom.cfg.storage = .memory →
    ∀ s ∈ l.vhostsFrom.cfg.sites, l.runtime.vhosts.resident ≤ s.tuning.maxTotalBytes

/-- A table built from a config: one record for each site, each under the policy of its block, an empty cache where
there is no root, and all of it within the budget. -/
structure Charged (v : Vhosts) (cfg : Config) : Prop where
  shared : v.sites.Shared
  policy : ∀ s ∈ Map.values v.sites, ∃ b ∈ cfg.sites, s.policy = sitePolicy cfg b
  rootless : ∀ s ∈ Map.values v.sites, s.root = none → s.cache.map = ∅
  within : cfg.storage = .memory → ∀ s ∈ cfg.sites, v.resident ≤ s.tuning.maxTotalBytes

section

variable {h : Nat → World} {c : Crates} {path : Str}

/-- A build in memory mode gives a table within the budget. -/
theorem buildVhosts_within {E : Type} (comp : Compressors) {cfg : Config} {max : Nat} (hb : cfg.Budget max)
    (hmem : cfg.storage = .memory) (seq i : Nat) :
    Obs.Holds h (fun _ _ => False) (buildVhosts comp cfg seq : Look E _) i
      fun r _ => ∀ v, r.1 = .ok v → v.resident ≤ max := by
  by_cases hok : (meeting h comp cfg seq i).whole = true ∧
      Charge.Admits max (serverBytes cfg) ((meeting h comp cfg seq i).charges cfg)
  · have hle := ((Meeting.admits_memory hmem (meeting_nonempty hb.nonempty)).1 hok.2).1
    have hres := (meeting h comp cfg seq i).resident_le cfg
    refine (buildVhosts_accepts hb.shared hok.1 hok.2).post ?_
    rintro r j ⟨v, hv, hv'⟩ v' heq
    rw [hv] at heq
    cases heq
    omega
  · refine (buildVhosts_refuses hb.shared hok).post ?_
    rintro r j ⟨e, he⟩ v heq
    rw [he] at heq
    cases heq

/-- Every build of a loaded config gives a table within its budget. -/
theorem buildVhosts_charged {E : Type} (comp : Compressors) (cfg : Loaded) (seq i : Nat) :
    Obs.Holds h (fun _ _ => False) (buildVhosts comp cfg.cfg seq : Look E _) i
      fun r _ => ∀ v, r.1 = .ok v → Charged v cfg.cfg := by
  have hb := parseConfig_budget cfg.parsed
  have htable : Obs.Holds h (fun _ _ => False) (buildVhosts comp cfg.cfg seq : Look E _) i fun r _ => ∀ v, r.1 = .ok v →
      TableOf (fun s site => site.policy = sitePolicy cfg.cfg s ∧ (site.root = none → site.cache.map = ∅))
        cfg.cfg.sites v.sites :=
    (buildVhosts_table (fun _ _ _ _ hS _ => hS)
      (fun s id total seq j _ => buildSite_built s id total seq j) seq).post fun r j hr v hv => (hr v hv).1
  have hwithin : Obs.Holds h (fun _ _ => False) (buildVhosts comp cfg.cfg seq : Look E _) i fun r _ => ∀ v, r.1 = .ok v →
      cfg.cfg.storage = .memory → v.resident ≤ budgetOf (layoutOf (lines cfg.text)).top := by
    by_cases hmem : cfg.cfg.storage = .memory
    · exact (buildVhosts_within comp hb hmem seq i).post fun r j hr v hv _ => hr v hv
    · exact htable.post fun r j _ v _ hm => absurd hm hmem
  refine (htable.and hwithin).mono (fun _ _ hf => hf.1) ?_
  rintro r j ⟨ht, hw⟩ v hv
  have htable := ht v hv
  have hvalue : ∀ s ∈ Map.values v.sites, ∃ b ∈ cfg.cfg.sites, s.policy = sitePolicy cfg.cfg b ∧
      (s.root = none → s.cache.map = ∅) := by
    intro s hs
    obtain ⟨host, hhost⟩ := Map.mem_values.1 hs
    obtain ⟨b, hb, -, hS⟩ := htable.site host s hhost
    exact ⟨b, hb, hS⟩
  constructor
  · exact htable.same
  · intro s hs
    obtain ⟨b, hb, hp, -⟩ := hvalue s hs
    exact ⟨b, hb, hp⟩
  · intro s hs
    obtain ⟨b, hb, -, hr⟩ := hvalue s hs
    exact hr
  · intro hmem s hs
    rw [hb.shared s hs]
    exact hw v hv hmem

theorem buildRuntime_charged (cfg : Loaded) (seq i : Nat) :
    Obs.Holds h (fun _ _ => False) (buildRuntime c cfg.cfg seq : Watch _) i
      fun r _ => ∀ rt, r.1 = .ok rt → Charged rt.vhosts cfg.cfg :=
  (buildRuntime_holds (V := fun v _ => Charged v cfg.cfg) seq i fun j _ =>
    buildVhosts_charged c.compressors cfg seq j).post fun _ _ hr rt hrt => (hr rt hrt).1

/-- A rebuilt cache: it was charged on top of everything else that stays. -/
theorem Charged.setCache {w : Watcher} (hw : Charged w.live.runtime.vhosts w.live.vhostsFrom.cfg)
    {targets : List (Site × Path × Str)} (ha : Accounts w.live.runtime.vhosts.sites targets) {x : Site}
    (hx : x ∈ Map.values w.live.runtime.vhosts.sites) (hroot : x.root ≠ none) {env : BuildEnv} {node : Node}
    {seq total seq' : Nat} {cache : SiteCache}
    (hb : buildCache env x.policy seq node (charged w targets x.id) = (some (cache, total), seq')) :
    Charged (w.live.setCache x.id cache).runtime.vhosts w.live.vhostsFrom.cfg := by
  have hvalue : ∀ s ∈ Map.values (w.live.runtime.vhosts.sites.setCache x.id cache),
      ∃ y ∈ Map.values w.live.runtime.vhosts.sites, s.policy = y.policy ∧ s.root = y.root ∧
        (s.cache = y.cache ∨ y.id = x.id) := by
    intro s hs
    rw [Sites.setCache, Map.values_mapVal] at hs
    obtain ⟨y, hy, rfl⟩ := List.mem_map.1 hs
    refine ⟨y, hy, ?_⟩
    split
    · rename_i hid
      exact ⟨rfl, rfl, .inr (by simpa using hid)⟩
    · exact ⟨rfl, rfl, .inl rfl⟩
  constructor
  · exact hw.shared.setCache _ _
  · intro s hs
    obtain ⟨y, hy, hp, -⟩ := hvalue s hs
    rw [hp]
    exact hw.policy y hy
  · intro s hs hnone
    obtain ⟨y, hy, -, hr, hc | hid⟩ := hvalue s hs
    · rw [hc]
      exact hw.rootless y hy (hr ▸ hnone)
    · -- the site that was rebuilt has a root
      obtain ⟨host, hhost⟩ := Map.mem_values.1 hy
      obtain ⟨host', hhost'⟩ := Map.mem_values.1 hx
      rw [hr, hw.shared host host' y x hhost hhost' hid] at hnone
      exact absurd hnone hroot
  · intro hmem s hs
    obtain ⟨b, hbmem, hpolicy⟩ := hw.policy x hx
    -- the rebuild started from what stays, and its walk kept to the budget
    have hold := hw.within hmem
    have hcharged := charged_eq hw.shared hw.rootless ha x.id
    have hother := otherBytes_le w.live.runtime.vhosts.sites x.id
    have hnew := contentBytes_setCache w.live.runtime.vhosts.sites x.id cache
    have hresident : (w.live.setCache x.id cache).runtime.vhosts.resident = errorPageBytes w.live.runtime.vhosts +
        contentBytes (w.live.runtime.vhosts.sites.setCache x.id cache) :=
      congrArg (· + _) (errorPageBytes_setCache w.live.runtime.vhosts x.id cache)
    have hmax : ∀ s ∈ w.live.vhostsFrom.cfg.sites, s.tuning.maxTotalBytes = x.policy.t.maxTotalBytes := by
      have hbudget := parseConfig_budget w.live.vhostsFrom.parsed
      intro s hs
      rw [hpolicy, sitePolicy_t, hbudget.shared s hs, hbudget.shared b hbmem]
    have hstart := hold s hs
    rw [hmax s hs] at hstart ⊢
    rw [Vhosts.resident] at hstart
    have hend := buildCache_within (by rw [hpolicy]; exact hmem) hb (by omega)
    rw [hresident]
    omega

/-! ## Runs -/

/-- The live table of a watcher is within the live config's budget. -/
def Watcher.Charged (w : Watcher) : Prop := BareServer.Charged w.live.runtime.vhosts w.live.vhostsFrom.cfg

theorem Watcher.Charged.within {w : Watcher} (hw : w.Charged) : WithinBudget w.live := fun hmem => BareServer.Charged.within hw hmem

theorem scan_charged {w : Watcher} {i : Nat} (hw : w.Charged) :
    Obs.Holds h (fun _ p => WithinBudget p.watcher.live) (scan c w) i fun w' _ => w'.Charged := by
  refine (scan_holds (P := fun _ w' _ => w'.Charged ∧ Recached w.live.runtime.vhosts.sites w'.live.runtime.vhosts.sites)
    (fun _ _ => ⟨hw, .refl _⟩) ?_ fun _ _ _ hP => hP).post fun w' _ hP => hP.1
  rintro order sigs targets j rfl _ done t rest hdone w1 k _ ⟨hP, hr⟩
  have ht : t ∈ orderTargets order (scanTargets (iter w.live.runtime.vhosts.sites order)) := by
    rw [hdone]
    simp
  have hlist := orderTargets_scanList hw.shared order
  obtain ⟨x, hx, hbare⟩ := (hlist.target t ht).recached hr hw.shared
  refine scanSite_holds (fun _ _ _ _ => ⟨hP, hr⟩) fun cache total seq _ hbuild => ?_
  rw [← Site.bare_policy hbare, ← Site.bare_id hbare] at hbuild
  have hnew : Charged (w1.live.setCache x.id cache).runtime.vhosts w1.live.vhostsFrom.cfg := by
    refine Charged.setCache hP ((scanTargets_accounts hw.shared order).recached hr)
      (Map.mem_values.2 ⟨_, hx.lookup⟩) ?_ hbuild
    rw [hx.root]
    exact Option.some_ne_none _
  rw [Site.bare_id hbare] at hnew
  exact ⟨hnew.within, hnew, hr.trans (recached_setCache _ _ _)⟩

theorem tick_charged {w : Watcher} {i : Nat} (hw : w.Charged) :
    Obs.Holds h (fun _ p => WithinBudget p.watcher.live) (tick c w) i fun w' _ => w'.Charged := by
  obtain ⟨r, j, hread, -, -⟩ := readInputs_run h w i
  refine tick_holds (P := fun w' _ _ => w'.Charged) (Q := fun w' _ => w'.Charged) hread ?_
    (fun w1 t k hP => ⟨hP.within, hP⟩) fun w1 k hQ => (scan_charged hQ).post fun w2 l hP => ⟨hP.within, hP⟩
  have hsame : ∀ {w1 w2 : Watcher}, SameCore w1 w2 → w1.Charged →
      BareServer.Charged w2.live.runtime.vhosts w2.live.vhostsFrom.cfg := by
    intro w1 w2 hcore hP
    rw [hcore.live]
    exact hP
  refine applyInputs_holds (P := fun w' _ _ => w'.Charged) (fun w1 w2 t j k hcore _ hP => hsame hcore hP) ?_ ?_
    fun _ _ => hw
  · intro _ w0 hcore
    have hw0 := hsame hcore hw
    refine reload_holds (fun seq e k _ => hw0) ?_
    intro cfg s rt seq order applied last k l m _ _ hbuild _ _ _ _
    have hnew : Charged rt.vhosts cfg.cfg := (buildRuntime_charged cfg w0.buildSeq k).of_run hbuild rt rfl
    exact ⟨hnew.within, fun _ _ _ => hnew⟩
  · intro _ w0 hcore
    have hw0 := hsame hcore hw
    refine reloadTls_holds (fun e k _ => hw0) fun cfg tls k _ _ _ => ?_
    have hnew : (w0.renewed cfg tls r.tlsNow).Charged := hw0
    exact ⟨hnew.within, hnew⟩

theorem boot_charged (h : Nat → World) (c : Crates) (path : Str) :
    Obs.Holds h (fun _ p => WithinBudget p.watcher.live) (boot c path) 0 fun x _ => ∀ w, x = .ok w → w.Charged := by
  refine boot_holds fun cfg s rt seq https http loops j k l _ _ hbuild _ _ _ _ => watchInit_holds ?_
  intro w order m _ _ _ hlive _ _ _
  have hnew : w.Charged := by
    rw [Watcher.Charged, hlive]
    exact (buildRuntime_charged cfg 0 j).of_run hbuild rt rfl
  exact ⟨hnew.within, hnew⟩

end

/-- In memory mode, whatever the world does meanwhile, a build of a config whose files keep their sizes between `stat`
and `read` comes to a budget test that fails exactly when the error pages and all eligible files it meets do not fit,
or a file that cannot be read would not; otherwise only something else refuses it. And every state that boot,
rebuilds and reloads publish keeps no more than the live budget. -/
theorem memory_ceiling (c : Crates) :
    (∀ (h : Nat → World) (cfg : Config) (max seq i : Nat), cfg.Budget max → cfg.storage = .memory →
      (meeting h c.compressors cfg seq i).SizesKept →
      (OverBudget h c.compressors cfg ∅ 0 (serverBytes cfg) seq i cfg.sites ↔
        max < serverBytes cfg + (meeting h c.compressors cfg seq i).demand cfg ∨
          (meeting h c.compressors cfg seq i).UnreadMisfit cfg max (serverBytes cfg)) ∧
      ((∃ v, builtVhosts h c.compressors cfg seq i = .ok v) ↔ (meeting h c.compressors cfg seq i).whole = true ∧
        ¬ OverBudget h c.compressors cfg ∅ 0 (serverBytes cfg) seq i cfg.sites) ∧
      ((meeting h c.compressors cfg seq i).whole = true →
        (meeting h c.compressors cfg seq i).sites.map (·.block) = cfg.sites)) ∧
    ∀ (h : Nat → World) (path : Str) (n : Nat),
      Obs.Holds h (fun _ p => WithinBudget p.watcher.live) (process c path n) 0
        fun x _ => ∀ w, x = some w → WithinBudget w.live := by
  constructor
  · intro h cfg max seq i hb hmem hsizes
    refine ⟨overBudget_memory hb hmem hsizes, ?_, meetSites_whole⟩
    rw [builtVhosts_iff hb.shared, meeting_overBudget hb.shared, not_not]
  · intro h path n
    exact (process_holds (P := fun w _ => w.Charged) (boot_charged h c path) (fun _ _ hw _ => tick_charged hw)
      (eachTick_of_forall (fun _ _ => trivial) n)).post fun x _ hx w hw => (hx w hw).within

/-! ## A small tree -/

/-- A config with one site and a budget. -/
def budgetConf (budget : Str) : Str :=
  str "listen = [::]:443\nmax_total_bytes = " ++ budget ++
    str "\nsite a.example \x7b\n cert = /c\n key = /k\n root = /www\n\x7d\n"

/-- A tree of one file. -/
def oneFile (size : Nat) (data : Option Bytes) : Node := .dir (some [(str "a", .file ⟨size, some 1⟩ data)])

theorem oneFile_wellNamed (size : Nat) (data : Option Bytes) : WellNamed (oneFile size data) := by
  have hname : IsName (str "a") := ⟨by decide, by decide, by decide⟩
  refine .dir (List.nodup_singleton _) (fun e he => ?_) fun e he => ?_
  · rw [List.mem_singleton.1 he]
    exact hname
  · rw [List.mem_singleton.1 he]
    exact .file _ _

/-- A file whose every size is as `stat` gave it, by computation. -/
theorem sizesKept_of_all {k : Meeting} (hall : (k.sites.all fun m => m.visit.files.all fun f =>
    f.data.all fun data => data.length == f.info.size) = true) : k.SizesKept := by
  intro m hm f hf data hd
  have := List.all_eq_true.1 (List.all_eq_true.1 hall m hm) f hf
  simpa [hd] using this

/-- A budget below the error pages alone. -/
theorem memory_ceiling_small : ∃ cfg, parseConfig (budgetConf (str "8K")) = .ok cfg ∧
    OverBudget (fun _ => .rootedAt (oneFile 1 (some [65]))) anyPem.compressors cfg ∅ 0 (serverBytes cfg) 0 0 cfg.sites ∧
    ¬ ∃ v, builtVhosts (fun _ => .rootedAt (oneFile 1 (some [65]))) anyPem.compressors cfg 0 0 = .ok v := by
  have hcheck : (parseConfig (budgetConf (str "8K"))).toOption.any (fun cfg => cfg.storage == .memory &&
      ((meeting (fun _ => .rootedAt (oneFile 1 (some [65]))) anyPem.compressors cfg 0 0).sites.all fun m =>
        m.visit.files.all fun f => f.data.all fun data => data.length == f.info.size) &&
      decide (8192 < serverBytes cfg +
        (meeting (fun _ => .rootedAt (oneFile 1 (some [65]))) anyPem.compressors cfg 0 0).demand cfg)) = true := by
    decide +kernel
  obtain ⟨cfg, hcfg, hok⟩ := ok_of_any hcheck
  simp only [Bool.and_eq_true, beq_iff_eq, decide_eq_true_eq] at hok
  have hb : cfg.Budget 8192 := by
    have := parseConfig_budget hcfg
    rwa [show budgetOf (layoutOf (lines (budgetConf (str "8K")))).top = 8192 by decide +kernel] at this
  obtain ⟨hiff, hbuilt, -⟩ := (memory_ceiling anyPem).1 (fun _ => .rootedAt (oneFile 1 (some [65]))) cfg 8192 0 0 hb
    hok.1.1 (sizesKept_of_all hok.1.2)
  have hover := hiff.2 (.inl hok.2)
  exact ⟨cfg, hcfg, hover, fun hv => (hbuilt.1 hv).2 hover⟩

/-- A file that cannot be read and is never cached: the build is refused for the budget although everything that would
be retained fits. -/
theorem unreadable_file_refused : ∃ cfg, parseConfig (budgetConf (str "16K")) = .ok cfg ∧ cfg.Budget 16384 ∧
    cfg.storage = .memory ∧ WellNamed (oneFile 8192 none) ∧
    (meeting (fun _ => .rootedAt (oneFile 8192 none)) anyPem.compressors cfg 0 0).SizesKept ∧
    ¬ (OverBudget (fun _ => .rootedAt (oneFile 8192 none)) anyPem.compressors cfg ∅ 0 (serverBytes cfg) 0 0 cfg.sites ↔
      16384 < serverBytes cfg +
        (meeting (fun _ => .rootedAt (oneFile 8192 none)) anyPem.compressors cfg 0 0).demand cfg) := by
  have hcheck : (parseConfig (budgetConf (str "16K"))).toOption.any (fun cfg => cfg.storage == .memory &&
      ((meeting (fun _ => .rootedAt (oneFile 8192 none)) anyPem.compressors cfg 0 0).sites.all fun m =>
        m.visit.files.all fun f => f.data.all fun data => data.length == f.info.size) &&
      decide (serverBytes cfg +
        (meeting (fun _ => .rootedAt (oneFile 8192 none)) anyPem.compressors cfg 0 0).demand cfg ≤ 16384) &&
      !decide (Charge.Admits 16384 (serverBytes cfg)
        ((meeting (fun _ => .rootedAt (oneFile 8192 none)) anyPem.compressors cfg 0 0).charges cfg))) = true := by
    decide +kernel
  obtain ⟨cfg, hcfg, hok⟩ := ok_of_any hcheck
  simp only [Bool.and_eq_true, beq_iff_eq, decide_eq_true_eq, Bool.not_eq_true', decide_eq_false_iff_not] at hok
  have hb : cfg.Budget 16384 := by
    have := parseConfig_budget hcfg
    rwa [show budgetOf (layoutOf (lines (budgetConf (str "16K")))).top = 16384 by decide +kernel] at this
  refine ⟨cfg, hcfg, hb, hok.1.1.1, oneFile_wellNamed _ _, sizesKept_of_all hok.1.1.2, fun hiff => ?_⟩
  have hover : OverBudget (fun _ => .rootedAt (oneFile 8192 none)) anyPem.compressors cfg ∅ 0 (serverBytes cfg) 0 0
      cfg.sites := (meeting_overBudget hb.shared).2 hok.2
  have := hiff.1 hover
  omega

end BareServer
