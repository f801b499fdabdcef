/-
The memory budget of one build of the host table: when it is refused for the budget, and when it is accepted.
In memory mode every charge covers what it keeps, so the ceiling bounds the whole table; in disk mode only the
error pages are tested, so what the last site's files keep is never weighed.
-/
import BareServer.Config.Reading
import BareServer.Watch.Meeting

namespace BareServer

open BareServer.Lib

/-! ## The budget of a config -/

/-- The sites of a config share one budget. -/
structure Config.Budget (cfg : Config) (max : Nat) : Prop where
  nonempty : cfg.sites ≠ []
  shared : ∀ s ∈ cfg.sites, s.tuning.maxTotalBytes = max

theorem parseConfig_nonempty {text : Str} {cfg : Config} (h : parseConfig text = .ok cfg) : cfg.sites ≠ [] := by
  unfold parseConfig at h
  cases hl : parseLines .init 1 (lines text) with
  | error e => rw [hl] at h; cases h
  | ok st =>
    rw [hl] at h
    simp only at h
    repeat' split at h
    all_goals try (cases h; done)
    rename_i hpending _ _ sites hsites
    cases h
    rintro rfl
    cases hp : st.pending with
    | nil => exact hpending (by rw [hp]; rfl)
    | cons p ps =>
      rw [hp] at hsites
      unfold resolveSites at hsites
      split at hsites
      · cases hsites
      · obtain ⟨ss, -, hnil⟩ := map_ok hsites
        cases hnil

/-- An accepted file gives all its sites the top level's budget. -/
theorem parseConfig_budget {text : Str} {cfg : Config} (h : parseConfig text = .ok cfg) :
    cfg.Budget (budgetOf (layoutOf (lines text)).top) := by
  refine ⟨parseConfig_nonempty h, fun s hs => ?_⟩
  obtain ⟨b, -, hb⟩ := forall₂_mem_right (parseConfig_sites h) hs
  exact hb.budget

/-! ## Refused for the budget -/

/-- A budget test of one site fails: its error pages do not fit, or the walk of its root comes to a file that does
not. -/
def SiteOver (h : Nat → World) (c : Compressors) (cfg : Config) (s : SiteConfig) (total seq i : Nat) : Prop :=
  s.tuning.maxTotalBytes < total + (sitePolicy cfg s).errors.retainedBytes ∨
  ∃ r root, s.root = some r ∧ (h i).canonicalize r = .ok root ∧ ((h (i + 1)).node root).isDir = true ∧
    (buildVisit ⟨c, (h (i + 2)).mkdir, (h (i + 2)).writes⟩ (sitePolicy cfg s) seq ((h (i + 2)).node root)).files.foldlM
      (walkFound ⟨c, (h (i + 2)).mkdir, (h (i + 2)).writes⟩ (sitePolicy cfg s) (snapshotDir (sitePolicy cfg s) seq))
      ⟨∅, total + (sitePolicy cfg s).errors.retainedBytes, ∅⟩ = none

/-- A build of the sites comes to a budget test that fails. -/
inductive OverBudget (h : Nat → World) (c : Compressors) (cfg : Config) :
    Sites → Nat → Nat → Nat → Nat → List SiteConfig → Prop
  | here {sites : Sites} {id total seq i : Nat} {s : SiteConfig} {rest : List SiteConfig} :
      SiteOver h c cfg s total seq i → OverBudget h c cfg sites id total seq i (s :: rest)
  | later {sites sites' : Sites} {id total seq i total' seq' j : Nat} {site : Site} {s : SiteConfig}
      {rest : List SiteConfig} :
      (buildSite c cfg s id total seq : Watch _).run h i = ⟨(.ok (site, total'), seq'), j, []⟩ →
      insertHosts site s.hosts sites = .ok sites' → OverBudget h c cfg sites' (id + 1) total' seq' j rest →
      OverBudget h c cfg sites id total seq i (s :: rest)

/-- What `build_vhosts` has charged before its first site. -/
def serverBytes (cfg : Config) : Nat := (ErrorPages.new cfg.headers.render).retainedBytes

section

variable {E : Type} {h : Nat → World} {c : Compressors} {cfg : Config} {max total seq i : Nat}

theorem siteOver_iff {s : SiteConfig} : SiteOver h c cfg s total seq i ↔
    ¬ Charge.Admits s.tuning.maxTotalBytes total ((meetSite h c cfg s seq i).charges cfg) := by
  have herr : (meetSite h c cfg s seq i).errorBytes cfg = (sitePolicy cfg s).errors.retainedBytes := by
    rw [Met.errorBytes, Met.policy, meetSite_block]
  rw [Met.admits_charges, herr, not_and_or, Nat.not_le]
  refine or_congr_right ?_
  constructor
  · rintro ⟨r, root, hroot, hcan, hdir, hpass⟩ hrest
    simp only [Met.contentCharges, Met.policy, meetSite, hroot, hcan, hdir, if_true] at hrest
    obtain ⟨files, hfold⟩ := @foldlM_admits _ (sitePolicy cfg s) _ _
      ⟨∅, total + (sitePolicy cfg s).errors.retainedBytes, ∅⟩ hrest
    rw [hpass] at hfold
    cases hfold
  · intro hrest
    -- only a root that is walked charges anything
    unfold meetSite at hrest
    cases hroot : s.root with
    | none => exact absurd (by rw [hroot]; trivial) hrest
    | some r =>
      simp only [hroot] at hrest
      cases hcan : (h i).canonicalize r with
      | error e => exact absurd (by rw [hcan]; trivial) hrest
      | ok root =>
        simp only [hcan] at hrest
        by_cases hdir : ((h (i + 1)).node root).isDir = true
        · rw [if_pos hdir] at hrest
          exact ⟨r, root, rfl, hcan, hdir,
            @foldlM_refused _ (sitePolicy cfg s) _ _ ⟨∅, total + (sitePolicy cfg s).errors.retainedBytes, ∅⟩ hrest⟩
        · exact absurd (by rw [if_neg hdir]; trivial) hrest

/-- A build comes to a budget test that fails when the charges of what it meets are not admitted. -/
theorem overBudget_iff : ∀ {todo : List SiteConfig} {taken : List Str} {sites : Sites} {id total seq i : Nat},
    (∀ s ∈ todo, s.tuning.maxTotalBytes = max) → Taken taken sites → taken.Nodup →
    (OverBudget h c cfg sites id total seq i todo ↔
      ¬ Charge.Admits max total ((meetSites h c cfg taken seq i todo).charges cfg))
  | [], _, _, _, _, _, _, _, _, _ => ⟨nofun, fun hno => absurd trivial hno⟩
  | s :: todo, taken, sites, id, total, seq, i, hmax, ht, hn => by
    have hs : s.tuning.maxTotalBytes = max := hmax s List.mem_cons_self
    have htodo : ∀ x ∈ todo, x.tuning.maxTotalBytes = max := fun x hx => hmax x (List.mem_cons_of_mem _ hx)
    have hcharges : Charge.Admits max total ((meetSites h c cfg taken seq i (s :: todo)).charges cfg) →
        Charge.Admits s.tuning.maxTotalBytes total ((meetSite h c cfg s seq i).charges cfg) := by
      rw [meetSites, hs]
      split <;> rw [Meeting.charges, List.flatMap_cons, Charge.admits_append] <;> exact And.left
    by_cases hone : Charge.Admits s.tuning.maxTotalBytes total ((meetSite h c cfg s seq i).charges cfg)
    · by_cases hgo : (meetSite h c cfg s seq i).visit.whole = true ∧ (taken ++ s.hosts).Nodup
      · -- the build goes on with the next site
        obtain ⟨r, j, hrun, ⟨site, rfl, rfl, -⟩, -⟩ :=
          (@buildSite_admits Publication h c cfg s total seq i id hgo.1 hone).run_eq
        obtain ⟨sites', hins, ht'⟩ := @insertHosts_ok site s.hosts taken sites ht hgo.2
        have ih := @overBudget_iff todo (taken ++ s.hosts) sites' (id + 1)
          (total + Charge.kept ((meetSite h c cfg s seq i).charges cfg)) (meetSite h c cfg s seq i).after
          (meetSite h c cfg s seq i).next htodo ht' hgo.2
        have hsplit : Charge.Admits max total ((meetSites h c cfg taken seq i (s :: todo)).charges cfg) ↔
            Charge.Admits max (total + Charge.kept ((meetSite h c cfg s seq i).charges cfg))
              ((meetSites h c cfg (taken ++ s.hosts) (meetSite h c cfg s seq i).after
                (meetSite h c cfg s seq i).next todo).charges cfg) := by
          rw [meetSites, if_pos hgo, Meeting.charges, List.flatMap_cons, Charge.admits_append, ← hs]
          exact and_iff_right hone
        rw [hsplit, ← ih]
        constructor
        · rintro (hhere | ⟨hrun', hins', hlater⟩)
          · exact absurd hone (siteOver_iff.1 hhere)
          · rw [hrun] at hrun'
            cases hrun'
            rw [hins] at hins'
            cases hins'
            exact hlater
        · exact fun hlater => .later hrun hins hlater
      · -- the build ends here, for another reason
        have hsplit : Charge.Admits max total ((meetSites h c cfg taken seq i (s :: todo)).charges cfg) := by
          rw [meetSites, if_neg hgo, Meeting.charges, List.flatMap_cons, List.flatMap_nil, List.append_nil, ← hs]
          exact hone
        refine ⟨?_, fun hno => absurd hsplit hno⟩
        rintro (hhere | ⟨hrun', hins', -⟩)
        · exact absurd hone (siteOver_iff.1 hhere)
        · by_cases hw : (meetSite h c cfg s seq i).visit.whole = true
          · exact absurd ⟨hw, insertHosts_nodup ht hins' hn⟩ hgo
          · obtain ⟨e, he⟩ := (buildSite_refused (E := Publication) id fun hok => hw hok.1).of_run hrun'
            cases he
    · -- the build ends here, for the budget
      exact ⟨fun _ hadm => hone (hcharges hadm), fun _ => .here (siteOver_iff.2 hone)⟩

/-! ## Accepted -/

/-- What a build of the host table meets. -/
def meeting (h : Nat → World) (c : Compressors) (cfg : Config) (seq i : Nat) : Meeting :=
  meetSites h c cfg [] seq i cfg.sites

theorem meeting_overBudget (hmax : ∀ s ∈ cfg.sites, s.tuning.maxTotalBytes = max) :
    OverBudget h c cfg ∅ 0 (serverBytes cfg) seq i cfg.sites ↔
      ¬ Charge.Admits max (serverBytes cfg) ((meeting h c cfg seq i).charges cfg) :=
  overBudget_iff hmax taken_empty List.nodup_nil

/-- A build that nothing refuses gives a table, which keeps what its sites keep. -/
theorem buildVhosts_accepts (hmax : ∀ s ∈ cfg.sites, s.tuning.maxTotalBytes = max)
    (hw : (meeting h c cfg seq i).whole = true)
    (hfit : Charge.Admits max (serverBytes cfg) ((meeting h c cfg seq i).charges cfg)) :
    Obs.Holds h (fun _ _ => False) (buildVhosts c cfg seq : Look E _) i fun r _ => ∃ v,
      r.1 = .ok v ∧ v.resident = serverBytes cfg + (meeting h c cfg seq i).resident cfg := by
  unfold buildVhosts
  simp only
  refine (buildSites_admits hmax taken_empty (by simp [Map.mem_values]) hw hfit).bind ?_
  rintro ⟨r, seq'⟩ j ⟨v, hv, hsum⟩
  simp only at hv
  subst hv
  simp only
  rw [Obs.holds_pure]
  refine ⟨_, rfl, ?_⟩
  rw [Vhosts.resident_eq, hsum, distinct_empty, List.map_nil, List.sum_nil, Nat.zero_add]
  rfl

theorem buildVhosts_refuses (hmax : ∀ s ∈ cfg.sites, s.tuning.maxTotalBytes = max)
    (hno : ¬ ((meeting h c cfg seq i).whole = true ∧
      Charge.Admits max (serverBytes cfg) ((meeting h c cfg seq i).charges cfg))) :
    Obs.Holds h (fun _ _ => False) (buildVhosts c cfg seq : Look E _) i fun r _ => ∃ e, r.1 = .error e := by
  unfold buildVhosts
  simp only
  refine (buildSites_refused hmax taken_empty List.nodup_nil hno).bind ?_
  rintro ⟨r, seq'⟩ j ⟨e, he⟩
  simp only at he
  subst he
  simp only
  rw [Obs.holds_pure]
  exact ⟨e, rfl⟩

/-- The result of a build. -/
def builtVhosts (h : Nat → World) (c : Compressors) (cfg : Config) (seq i : Nat) : Except Str Vhosts :=
  ((buildVhosts c cfg seq : Watch _).run h i).value.1

theorem builtVhosts_iff (hmax : ∀ s ∈ cfg.sites, s.tuning.maxTotalBytes = max) :
    (∃ v, builtVhosts h c cfg seq i = .ok v) ↔ (meeting h c cfg seq i).whole = true ∧
      Charge.Admits max (serverBytes cfg) ((meeting h c cfg seq i).charges cfg) := by
  constructor
  · rintro ⟨v, hv⟩
    by_contra hno
    obtain ⟨e, he⟩ := (@buildVhosts_refuses Publication h c cfg max seq i hmax hno).2
    rw [builtVhosts, he] at hv
    cases hv
  · rintro ⟨hw, hfit⟩
    obtain ⟨v, hv, -⟩ := (@buildVhosts_accepts Publication h c cfg max seq i hmax hw hfit).2
    exact ⟨v, hv⟩

/-- A table that is built keeps what the sites met keep. -/
theorem builtVhosts_resident (hmax : ∀ s ∈ cfg.sites, s.tuning.maxTotalBytes = max) {v : Vhosts}
    (hv : builtVhosts h c cfg seq i = .ok v) : v.resident = serverBytes cfg + (meeting h c cfg seq i).resident cfg := by
  obtain ⟨hw, hfit⟩ := (builtVhosts_iff hmax).1 ⟨v, hv⟩
  obtain ⟨v', hv', hres⟩ := (@buildVhosts_accepts Publication h c cfg max seq i hmax hw hfit).2
  rw [builtVhosts, hv'] at hv
  cases hv
  exact hres

theorem meeting_nonempty (hne : cfg.sites ≠ []) : (meeting h c cfg seq i).sites ≠ [] := by
  unfold meeting
  cases hs : cfg.sites with
  | nil => exact absurd hs hne
  | cons s rest =>
    rw [meetSites]
    split <;> exact List.cons_ne_nil _ _

end

/-! ## Memory mode -/

/-- In memory mode every file that asks for more than it keeps has room where the walk comes to it: a file that cannot
be read, or one that shrank after its size was taken. -/
def Meeting.Roomy (cfg : Config) (max total : Nat) (k : Meeting) : Prop :=
  ∀ pre m post fpre f fpost, k.sites = pre ++ m :: post → m.visit.files = fpre ++ f :: fpost →
    f.info.size ≤ (m.policy cfg).t.maxFileSize → f.kept m.env (m.policy cfg) none < f.info.size →
    total + Charge.kept (pre.flatMap (·.charges cfg)) + m.errorBytes cfg +
      Charge.kept (fileCharges m.env (m.policy cfg) none fpre) + f.info.size ≤ max

section

variable {cfg : Config} {max total : Nat}

theorem snapshotDir_memory {p : Policy} (h : p.storage = .memory) (seq : Nat) : snapshotDir p seq = none := by
  rw [snapshotDir, h]

theorem Met.covered (hmem : cfg.storage = .memory) (m : Met) : ∀ ch ∈ m.charges cfg, ch.Covered := by
  intro ch hch
  rcases List.mem_cons.1 hch with rfl | hch
  · exact le_rfl
  · rw [contentCharges, snapshotDir_memory hmem] at hch
    exact fileCharges_covered _ ch hch

theorem Meeting.covered (hmem : cfg.storage = .memory) (k : Meeting) : ∀ ch ∈ k.charges cfg, ch.Covered := by
  intro ch hch
  obtain ⟨m, -, hm⟩ := List.mem_flatMap.1 hch
  exact m.covered hmem ch hm

theorem exceeding_iff {env : BuildEnv} {p : Policy} {f : Found} : (f.charge env p none).Exceeding ↔
    f.info.size ≤ p.t.maxFileSize ∧ f.kept env p none < f.info.size := by
  constructor
  · rintro ⟨a, ha, hlt⟩
    by_cases hsize : f.info.size ≤ p.t.maxFileSize
    · rw [Found.charge_memory hsize, Option.some.injEq] at ha
      change f.kept env p none < a at hlt
      exact ⟨hsize, by omega⟩
    · have huntested : (f.charge env p none).Untested := Found.charge_untested fun h => hsize h.2
      rw [huntested] at ha
      cases ha
  · rintro ⟨hsize, hlt⟩
    exact ⟨_, Found.charge_memory hsize, lt_max_of_lt_left hlt⟩

/-- The charges of one site below the ceiling. -/
theorem Met.admits_memory (hmem : cfg.storage = .memory) {m : Met} (hle : total + Charge.kept (m.charges cfg) ≤ max) :
    Charge.Admits max total (m.charges cfg) ↔ ∀ fpre f fpost, m.visit.files = fpre ++ f :: fpost →
      f.info.size ≤ (m.policy cfg).t.maxFileSize → f.kept m.env (m.policy cfg) none < f.info.size →
      total + m.errorBytes cfg + Charge.kept (fileCharges m.env (m.policy cfg) none fpre) + f.info.size ≤ max := by
  rw [kept_charges, contentCharges, snapshotDir_memory hmem] at hle
  rw [Met.admits_charges, contentCharges, snapshotDir_memory hmem, and_iff_right (by omega),
    Charge.admits_iff_exceeding (by omega)]
  constructor
  · intro hall fpre f fpost hfiles hsize hlt
    have hfit := hall (fileCharges m.env (m.policy cfg) none fpre) _ (fileCharges m.env (m.policy cfg) none fpost)
      (by rw [hfiles, fileCharges, List.map_append, List.map_cons]; rfl) (exceeding_iff.2 ⟨hsize, hlt⟩)
    have := hfit _ (Found.charge_memory hsize)
    omega
  · intro hall pre ch post hsplit hex
    obtain ⟨fpre, ftail, hfiles, rfl, htail⟩ := List.map_eq_append_iff.1 hsplit
    obtain ⟨f, fpost, rfl, rfl, rfl⟩ := List.map_eq_cons_iff.1 htail
    obtain ⟨hsize, hlt⟩ := exceeding_iff.1 hex
    intro a ha
    rw [Found.charge_memory hsize, Option.some.injEq] at ha
    have := hall fpre f fpost hfiles hsize hlt
    rw [fileCharges] at this
    omega

/-- In memory mode the budget admits exactly what it holds, but for the files that ask for more than they keep. -/
theorem Meeting.admits_memory (hmem : cfg.storage = .memory) {k : Meeting} (hne : k.sites ≠ []) :
    Charge.Admits max total (k.charges cfg) ↔ total + Charge.kept (k.charges cfg) ≤ max ∧ k.Roomy cfg max total := by
  have hbound : Charge.Admits max total (k.charges cfg) → total + Charge.kept (k.charges cfg) ≤ max := by
    intro hadm
    obtain ⟨m, rest, hs⟩ := List.exists_cons_of_ne_nil hne
    -- the first charge is tested
    have hfirst : total ≤ max := by
      rw [charges, hs, List.flatMap_cons] at hadm
      have := ((Charge.admits_append _).1 hadm).1.1 _ rfl
      omega
    exact hadm.bounded hfirst (k.covered hmem)
  have hsites : total + Charge.kept (k.charges cfg) ≤ max →
      (Charge.Admits max total (k.charges cfg) ↔ k.Roomy cfg max total) := by
    intro hle
    have hpart : ∀ pre m post, k.sites = pre ++ m :: post →
        total + Charge.kept (pre.flatMap (·.charges cfg)) + Charge.kept (m.charges cfg) ≤ max := by
      intro pre m post hsplit
      rw [charges, hsplit, List.flatMap_append, List.flatMap_cons, Charge.kept_append, Charge.kept_append] at hle
      omega
    rw [charges, Charge.admits_flatMap]
    constructor
    · intro hall pre m post fpre f fpost hsplit
      exact (Met.admits_memory hmem (hpart pre m post hsplit)).1 (hall pre m post hsplit) fpre f fpost
    · intro hroomy pre m post hsplit
      exact (Met.admits_memory hmem (hpart pre m post hsplit)).2 fun fpre f fpost =>
        hroomy pre m post fpre f fpost hsplit
  constructor
  · intro hadm
    exact ⟨hbound hadm, (hsites (hbound hadm)).1 hadm⟩
  · rintro ⟨hle, hroomy⟩
    exact (hsites hle).2 hroomy

/-- So what these files ask for at most decides. -/
theorem Meeting.admits_asked (hmem : cfg.storage = .memory) {k : Meeting} (hne : k.sites ≠ []) :
    Charge.Admits max total (k.charges cfg) ↔
      total + Charge.kept (k.charges cfg) ≤ max ∧ Charge.asked total (k.charges cfg) ≤ max := by
  constructor
  · intro hadm
    have hle := ((admits_memory hmem hne).1 hadm).1
    exact ⟨hle, (Charge.admits_iff_asked hle).1 hadm⟩
  · rintro ⟨hle, hasked⟩
    exact (Charge.admits_iff_asked hle).2 hasked

end

/-! ## Disk mode -/

/-- What the files of the last site are charged for. -/
def Meeting.lastContent (cfg : Config) (k : Meeting) : Nat :=
  k.sites.getLast?.elim 0 fun m => Charge.kept (m.contentCharges cfg)

section

variable {cfg : Config} {max total : Nat}

theorem Met.content_untested (hdisk : cfg.storage = .disk) (m : Met) : ∀ ch ∈ m.contentCharges cfg, ch.Untested := by
  have hdir : snapshotDir (m.policy cfg) m.seq = some (buildDirPath (m.policy cfg) m.seq) := by
    rw [snapshotDir, show (m.policy cfg).storage = .disk from hdisk]
  rw [contentCharges, hdir]
  exact fileCharges_untested _ _

/-- In disk mode the budget admits what it has room for without the files of the last site. -/
theorem Meeting.admits_disk (hdisk : cfg.storage = .disk) {k : Meeting} (hne : k.sites ≠ []) :
    Charge.Admits max total (k.charges cfg) ↔ total + Charge.kept (k.charges cfg) ≤ max + k.lastContent cfg := by
  unfold charges lastContent
  obtain ⟨pre, m, hs⟩ := (List.eq_nil_or_concat k.sites).resolve_left hne
  rw [List.concat_eq_append] at hs
  have hpre : ∀ ch ∈ pre.flatMap fun x => x.charges cfg, ch.Untested ∨ ch.Plain := by
    intro ch hch
    obtain ⟨x, -, hx⟩ := List.mem_flatMap.1 hch
    rcases List.mem_cons.1 hx with rfl | hx
    · exact .inr rfl
    · exact .inl (x.content_untested hdisk ch hx)
  rw [hs, List.flatMap_append, List.flatMap_singleton, List.getLast?_concat, Option.elim_some, Met.charges,
    Charge.admits_last hpre (Charge.plain_mk _) (m.content_untested hdisk), Charge.kept_append, Charge.kept_cons]
  dsimp only
  omega

end
end BareServer
