/-
Which files a request can open: snapshot files recorded in the cache of its own site, and tokens of
that site's challenge directory. A build writes below its own snapshot directory only, so a recorded
path does not leave it.
-/
import BareServer.Serve.Upgrade

namespace BareServer

open BareServer.Lib

/-! ## Paths below a directory -/

/-- One component of a path that leads down. -/
structure IsComponent (n : Str) : Prop where
  nonempty : n ≠ []
  noSlash : 47 ∉ n
  notDot : n ≠ str "."
  notDotDot : n ≠ str ".."

/-- Strictly below a directory: the directory, and one or more components that lead down. -/
def Inside (dir path : Path) : Prop := ∃ names, names ≠ [] ∧ (∀ n ∈ names, IsComponent n) ∧ path = dir ++ urlOf names

/-- The names of every directory are single components, whatever their bytes. -/
inductive Slashless : Node → Prop
  | dir {entries : List (Bytes × Node)} : (∀ e ∈ entries, e.1 ≠ [] ∧ 47 ∉ e.1) → (∀ e ∈ entries, Slashless e.2) →
      Slashless (.dir (some entries))
  | leaf {n : Node} : (∀ entries, n ≠ .dir (some entries)) → Slashless n

/-- A visible name leads down, also where it had to be decoded with replacements. -/
theorem isComponent_lossy {raw : Bytes} (hne : raw ≠ []) (hslash : 47 ∉ raw) (hv : isHidden (fromUtf8Lossy raw) = false) :
    IsComponent (fromUtf8Lossy raw) := by
  refine ⟨lossyFrom_ne_nil raw .start [] (.inr hne), fun h => ?_, ?_, ?_⟩
  · rcases mem_lossyFrom raw .start [] 47 h with h | h | h
    · cases h
    · exact hslash h
    · revert h; decide
  · intro h
    rw [h] at hv
    revert hv; decide
  · intro h
    rw [h] at hv
    revert hv; decide

/-- Every file a walk meets has a URL of visible components. -/
theorem visited_visible (pre : Str) (node : Node) : Slashless node → ∀ f ∈ (visited pre node).files,
    ∃ names, names ≠ [] ∧ (∀ n ∈ names, IsComponent n ∧ isHidden n = false) ∧ f.url = pre ++ urlOf names := by
  refine visited.induct
    (motive_1 := fun pre entries => (∀ e ∈ entries, (e.1 ≠ [] ∧ 47 ∉ e.1) ∧ Slashless e.2) →
      ∀ f ∈ (visited.go pre entries).files,
        ∃ names, names ≠ [] ∧ (∀ n ∈ names, IsComponent n ∧ isHidden n = false) ∧ f.url = pre ++ urlOf names)
    (motive_2 := fun pre node => Slashless node → ∀ f ∈ (visited pre node).files,
      ∃ names, names ≠ [] ∧ (∀ n ∈ names, IsComponent n ∧ isHidden n = false) ∧ f.url = pre ++ urlOf names)
    ?dir ?unreadable ?nil ?hidden ?file ?subdir ?skip pre node
  case dir =>
    rintro pre entries ih (⟨hn, hs⟩ | hleaf)
    · rw [visited]
      exact ih fun e he => ⟨hn e he, hs e he⟩
    · exact absurd rfl (hleaf entries)
  case unreadable =>
    intro pre node hne _ f hf
    rw [visited] at hf
    · cases hf
    · exact hne
  case nil =>
    intro pre _ f hf
    cases hf
  case hidden =>
    intro pre raw node rest name hh ih hs
    rw [visited.go, if_pos hh]
    exact ih (List.forall_mem_cons.1 hs).2
  case file =>
    intro pre raw rest name hh info data ih hs f hf
    obtain ⟨⟨hhead, -⟩, hrest⟩ := List.forall_mem_cons.1 hs
    rw [visited.go, if_neg hh] at hf
    rcases List.mem_cons.1 hf with rfl | hf
    · have hv : isHidden name = false := by simpa using hh
      have hc : IsComponent name := isComponent_lossy hhead.1 hhead.2 hv
      exact ⟨[name], by simp, by simpa using ⟨hc, hv⟩, by simp [urlOf, name]⟩
    · exact ih hrest f hf
  case subdir =>
    intro pre raw rest name hh url entries ih1 ih2 hs f hf
    obtain ⟨⟨hhead, hnode⟩, hrest⟩ := List.forall_mem_cons.1 hs
    have hv : isHidden name = false := by simpa using hh
    have hc : IsComponent name := isComponent_lossy hhead.1 hhead.2 hv
    have hbelow : f ∈ (visited url (.dir entries)).files ∨ f ∈ (visited.go pre rest).files := by
      rw [visited.go, if_neg hh] at hf
      simp only [Visit.andThen] at hf
      split at hf
      · exact List.mem_append.1 hf
      · exact .inl hf
    rcases hbelow with hf | hf
    · obtain ⟨names, -, hnames, hurl⟩ := ih1 hnode f hf
      refine ⟨name :: names, by simp, ?_, ?_⟩
      · rintro n (_ | ⟨_, hmem⟩)
        · exact ⟨hc, hv⟩
        · exact hnames n hmem
      · rw [hurl, urlOf_cons]
        simp only [url, List.append_assoc]
    · exact ih2 hrest f hf
  case skip =>
    intro pre raw node rest name hh hf hd ih hs
    have hrest := ih (List.forall_mem_cons.1 hs).2
    rw [visited.go, if_neg hh]
    cases node with
    | file info data => exact (hf info data rfl).elim
    | dir entries => exact (hd entries rfl).elim
    | _ => exact hrest

/-- A build's files have URLs of visible components. -/
theorem found_visible {root : Node} {fs : List Found} (hroot : Slashless root) (hfs : found [] root = some fs) :
    ∀ f ∈ fs, ∃ names, names ≠ [] ∧ (∀ n ∈ names, IsComponent n ∧ isHidden n = false) ∧ f.url = urlOf names := by
  have hfiles : (visited [] root).files = fs := by
    rw [found_visited, Visit.all] at hfs
    split at hfs
    · exact Option.some.inj hfs
    · cases hfs
  intro f hf
  exact visited_visible [] root hroot f (hfiles ▸ hf)

/-! ## What a build writes -/

/-- The directories of a snapshot. -/
def namespaces : List Str := [str "identity", str "gzip", str "br"]

theorem namespaces_component : ∀ ns ∈ namespaces, IsComponent ns := by
  have hall : ∀ ns ∈ namespaces, ns ≠ [] ∧ 47 ∉ ns ∧ ns ≠ str "." ∧ ns ≠ str ".." := by decide
  intro ns hns
  obtain ⟨h1, h2, h3, h4⟩ := hall ns hns
  exact ⟨h1, h2, h3, h4⟩

/-- The snapshot path of a URL of components is inside the directory of its build. -/
theorem inside_snapshotPath (p : Policy) (seq : Nat) {ns : Str} (hns : ns ∈ namespaces) {names : List Str}
    (hne : names ≠ []) (hnames : ∀ n ∈ names, IsComponent n) :
    Inside (buildDirPath p seq) (snapshotPath (buildDirPath p seq) ns (urlOf names)) := by
  have hbuild : IsNamespace (str "build-" ++ dec seq) := by
    have hdash : str "build-" ≠ [] ∧ (47 : UInt8) ∉ str "build-" := by decide
    refine ⟨by simp [hdash.1], fun h => ?_⟩
    rcases List.mem_append.1 h with h | h
    · exact hdash.2 h
    · exact absurd (isAlnum_of_mem_dec h) (by decide)
  have hdir : buildDirPath p seq = withSeparator p.diskCache ++ (str "build-" ++ dec seq) := join_relative hbuild.head
  have hnsc := namespaces_component ns hns
  cases names with
  | nil => exact absurd rfl hne
  | cons n names =>
    have hn := hnames n List.mem_cons_self
    have hhead : (n ++ urlOf names).head? ≠ some 47 := by
      have := hn.nonempty
      have := hn.noSlash
      cases n with
      | nil => contradiction
      | cons b n =>
        simp only [List.cons_append, List.head?_cons, ne_eq, Option.some.injEq]
        rintro rfl
        simp at this
    refine ⟨ns :: n :: names, by simp, ?_, ?_⟩
    · rintro x (_ | ⟨_, hx⟩)
      · exact hnsc
      · exact hnames x hx
    · rw [urlOf_cons_byte n names, snapshotPath_eq _ ⟨hnsc.nonempty, hnsc.noSlash⟩ hhead, hdir,
        withSeparator_component hbuild, urlOf_cons ns, urlOf_cons_byte n names]
      simp only [List.append_assoc]

section

variable {c : Compressors} {writes writes' : Path → Bool} {url mime : Str} {data : Bytes} {p : Policy} {bd : Path}
  {files : Files}

/-- Making an entry asks for the three paths of its URL only. -/
theorem makeDiskEntry_congr (hw : ∀ ns ∈ namespaces, writes' (snapshotPath bd ns url) = writes (snapshotPath bd ns url)) :
    makeDiskEntry c writes' url mime data p bd files = makeDiskEntry c writes url mime data p bd files := by
  simp only [namespaces, List.mem_cons, List.not_mem_nil, or_false, forall_eq_or_imp, forall_eq] at hw
  unfold makeDiskEntry
  obtain ⟨gz, br⟩ := compressVariants c mime data p
  cases gz <;> cases br <;> simp only [writeVariant, writeOptional, hw]

variable (c writes mime data p files) in
/-- The snapshot changes at these paths only. -/
theorem makeDiskEntry_files {q : Path} (hq : ∀ ns ∈ namespaces, q ≠ snapshotPath bd ns url) :
    (makeDiskEntry c writes url mime data p bd files).2.lookup q = files.lookup q := by
  simp only [namespaces, List.mem_cons, List.not_mem_nil, or_false, forall_eq_or_imp, forall_eq] at hq
  unfold makeDiskEntry
  rcases compressVariants c mime data p with ⟨_ | g, _ | b⟩ <;>
    cases hi : writes (snapshotPath bd (str "identity") url) <;>
    cases hg : writes (snapshotPath bd (str "gzip") url) <;>
    cases hb : writes (snapshotPath bd (str "br") url) <;>
    simp [writeVariant_eq, writeOptional, hi, hg, hb, hq]

/-- The variants of an entry stand at these paths. -/
theorem diskEntry_paths {v : DiskVariant} (hv : v ∈ (diskEntry c url mime data p bd).variants) :
    ∃ ns ∈ namespaces, v.path = snapshotPath bd ns url := by
  simp only [DiskEntry.variants, diskEntry, List.mem_cons, List.mem_append, Option.mem_toList,
    Option.map_eq_some_iff] at hv
  rcases hv with rfl | ⟨g, -, rfl⟩ | ⟨b, -, rfl⟩
  · exact ⟨_, by simp [namespaces], rfl⟩
  · exact ⟨_, by simp [namespaces], rfl⟩
  · exact ⟨_, by simp [namespaces], rfl⟩

end

/-- A pass that stays on its files is the same for steps that agree on them. -/
theorem pass_congr {β : Type} {step step' : β → Found → Option β} (v : Visit)
    (h : ∀ f ∈ v.files, ∀ b, step' b f = step b f) (b : β) : v.pass step' b = v.pass step b := by
  obtain ⟨fs, whole⟩ := v
  have hfold : ∀ b, fs.foldlM step' b = fs.foldlM step b := by
    induction fs with
    | nil => exact fun _ => rfl
    | cons f fs ih =>
      intro b
      rw [List.foldlM_cons, List.foldlM_cons, h f List.mem_cons_self b]
      exact congrArg _ (funext (ih fun g hg => h g (List.mem_cons_of_mem _ hg)))
  exact congrArg (Option.bind · _) (hfold b)

/-- What every step of a pass keeps holds after it. -/
theorem foldlM_keeps {α β : Type} {step : β → α → Option β} {P : β → Prop} {fs : List α}
    (h : ∀ f ∈ fs, ∀ b b', P b → step b f = some b' → P b') : ∀ {b b'}, P b → fs.foldlM step b = some b' → P b' := by
  induction fs with
  | nil =>
    intro b b' hP hb
    cases hb
    exact hP
  | cons f fs ih =>
    intro b b' hP hb
    rw [List.foldlM_cons] at hb
    obtain ⟨b1, h1, h2⟩ := Option.bind_eq_some_iff.1 hb
    exact ih (fun g hg => h g (List.mem_cons_of_mem _ hg)) (h f List.mem_cons_self b b1 hP h1) h2

section

variable {env env' : BuildEnv} {p : Policy} {seq : Nat} {root : Node}

/-- A file is passed the same way where its snapshot paths can be written alike. -/
theorem walkFound_congr {bd : Path} (hc : env'.compressors = env.compressors) {f : Found}
    (hw : ∀ ns ∈ namespaces, env'.writes (snapshotPath bd ns f.url) = env.writes (snapshotPath bd ns f.url))
    (b : Building) : walkFound env' p (some bd) b f = walkFound env p (some bd) b f := by
  unfold walkFound walkFile makeEntry
  simp only [hc, makeDiskEntry_congr hw]

/-- The snapshot of one file stays below the directory of the build. -/
theorem walkFound_inside {f : Found} {names : List Str} (hne : names ≠ []) (hnames : ∀ n ∈ names, IsComponent n)
    (hurl : f.url = urlOf names) {b b' : Building}
    (hb : ∀ path content, b.files.lookup path = some content → Inside (buildDirPath p seq) path)
    (h : walkFound env p (some (buildDirPath p seq)) b f = some b') :
    ∀ path content, b'.files.lookup path = some content → Inside (buildDirPath p seq) path := by
  rw [walkFound_eq, if_neg (fun h => by cases h.1)] at h
  cases h
  intro path content hlookup
  by_cases hq : ∃ ns ∈ namespaces, path = snapshotPath (buildDirPath p seq) ns f.url
  · obtain ⟨ns, hns, rfl⟩ := hq
    rw [hurl]
    exact inside_snapshotPath p seq hns hne hnames
  · refine hb path content ?_
    rw [← hlookup]
    symm
    unfold Found.files
    cases f.usable p with
    | none => rfl
    | some data =>
      have hframe := makeDiskEntry_files env.compressors env.writes (mimeFor f.url) data p b.files
        (fun ns hns he => hq ⟨ns, hns, he⟩)
      simp only [makeEntry]
      generalize makeDiskEntry env.compressors env.writes f.url (mimeFor f.url) data p (buildDirPath p seq) b.files = made at hframe ⊢
      obtain ⟨_ | _, fs'⟩ := made <;> exact hframe

/-- A build on disk asks for nothing outside its directory: how the rest of the file system can be written
makes no difference. -/
theorem buildCache_congr (hs : p.storage = .disk) (hroot : Slashless root) (hc : env'.compressors = env.compressors)
    (hm : env'.mkdir = env.mkdir)
    (hw : ∀ path, Inside (buildDirPath p seq) path → env'.writes path = env.writes path) (total : Nat) :
    buildCache env' p seq root total = buildCache env p seq root total := by
  unfold buildCache
  have hwalk : ∀ b, walk env' p (some (buildDirPath p seq)) [] root b = walk env p (some (buildDirPath p seq)) [] root b := by
    intro b
    rw [walk_visited, walk_visited]
    refine pass_congr _ (fun f hf b => walkFound_congr hc (fun ns hns => hw _ ?_) b) b
    obtain ⟨names, hne, hnames, hurl⟩ := visited_visible [] root hroot f hf
    rw [hurl, List.nil_append]
    exact inside_snapshotPath p seq hns hne fun n hn => (hnames n hn).1
  simp only [hs, hm, hwalk]

/-- The snapshot of a build on disk is below its directory, and so is every path its cache records. -/
theorem buildCache_inside (hs : p.storage = .disk) (hroot : Slashless root) {total total' seq' : Nat} {cache : SiteCache}
    (h : buildCache env p seq root total = (some (cache, total'), seq')) :
    ∃ files, cache.buildDir = some ⟨buildDirPath p seq, files⟩ ∧
      (∀ path content, files.lookup path = some content → Inside (buildDirPath p seq) path) ∧
      ∀ url d, cache.map.lookup url = some (.disk d) → ∀ v ∈ d.variants, Inside (buildDirPath p seq) v.path := by
  obtain ⟨fs, b, hfs, hfold, rfl⟩ := buildCache_some h
  have hdir : snapshotDir p seq = some (buildDirPath p seq) := by rw [snapshotDir, hs]
  have hcomponents : ∀ f ∈ fs, ∃ names, names ≠ [] ∧ (∀ n ∈ names, IsComponent n) ∧ f.url = urlOf names := by
    intro f hf
    obtain ⟨names, hne, hnames, hurl⟩ := found_visible hroot hfs f hf
    exact ⟨names, hne, fun n hn => (hnames n hn).1, hurl⟩
  have hent : Entered env p (snapshotDir p seq) ([] ++ fs) b :=
    foldlM_walkFound fs (fun done f b b' _ _ hs hP => entered_step hs hP) fs [] _ _ nofun (fun _ h => h)
      (fun url e he => by simp at he) hfold
  rw [hdir] at hfold hent ⊢
  refine ⟨b.files, rfl, ?_, ?_⟩
  · refine foldlM_keeps (P := fun b => ∀ path content, b.files.lookup path = some content →
      Inside (buildDirPath p seq) path) (fun f hf b b' hb hstep => ?_) (fun path content h => by simp at h) hfold
    obtain ⟨names, hne, hnames, hurl⟩ := hcomponents f hf
    exact walkFound_inside hne hnames hurl hb hstep
  · intro url d hd v hv
    obtain ⟨f, hf, rfl, data, -, hentry⟩ := hent url _ hd
    obtain ⟨names, hne, hnames, hurl⟩ := hcomponents f hf
    unfold entryFor at hentry
    simp only at hentry
    split at hentry
    · cases hentry
      obtain ⟨ns, hns, hpath⟩ := diskEntry_paths hv
      rw [hpath, hurl]
      exact inside_snapshotPath p seq hns hne hnames
    · cases hentry

end

/-! ## What a build records -/

/-- Every body that a cache points at stands in its snapshot. -/
def SiteCache.Whole (c : SiteCache) : Prop :=
  ∀ url d, c.map.lookup url = some (.disk d) →
    ∃ bd, c.buildDir = some bd ∧ ∀ v ∈ d.variants, (bd.files.lookup v.path).isSome

theorem SiteCache.whole_empty : SiteCache.Whole .empty := by
  intro url d h
  simp [SiteCache.empty] at h

section

variable (c : Compressors) (writes : Path → Bool) (url mime : Str) (data : Bytes) (p : Policy) (bd : Path) (files : Files)

/-- No body is lost to a later one, whatever it replaces. -/
theorem makeDiskEntry_grows {q : Path} (hq : (files.lookup q).isSome) :
    ((makeDiskEntry c writes url mime data p bd files).2.lookup q).isSome := by
  have hinsert : ∀ {fs : Files} {path : Path} (body : Bytes), (fs.lookup q).isSome → ((fs.insert path body).lookup q).isSome := by
    intro fs path body h
    rw [Map.lookup_insert']
    split
    · rfl
    · exact h
  unfold makeDiskEntry
  rcases compressVariants c mime data p with ⟨_ | g, _ | b⟩ <;>
    cases hi : writes (snapshotPath bd (str "identity") url) <;>
    cases hg : writes (snapshotPath bd (str "gzip") url) <;>
    cases hb : writes (snapshotPath bd (str "br") url) <;>
    simp only [writeVariant_eq, writeOptional, hi, hg, hb, if_true, Bool.false_eq_true, if_false] <;>
    first | exact hq | exact hinsert _ hq | exact hinsert _ (hinsert _ hq) | exact hinsert _ (hinsert _ (hinsert _ hq))

/-- An entry is made of bodies that were written. -/
theorem makeDiskEntry_written {d : DiskEntry} (h : (makeDiskEntry c writes url mime data p bd files).1 = some d) :
    ∀ v ∈ d.variants, ((makeDiskEntry c writes url mime data p bd files).2.lookup v.path).isSome := by
  unfold makeDiskEntry at h ⊢
  rcases hc : compressVariants c mime data p with ⟨_ | g, _ | b⟩ <;>
    cases hi : writes (snapshotPath bd (str "identity") url) <;>
    cases hg : writes (snapshotPath bd (str "gzip") url) <;>
    cases hb : writes (snapshotPath bd (str "br") url) <;>
    simp only [hc, writeVariant_eq, writeOptional, hi, hg, hb, if_true, Bool.false_eq_true, if_false, reduceCtorEq] at h ⊢ <;>
    cases h <;>
    simp [DiskEntry.variants, diskVariant, Map.lookup_insert'] <;>
    grind

end

/-- A cache that a build on disk returns stands whole in its snapshot, whatever the tree. -/
theorem buildCache_whole {env : BuildEnv} {p : Policy} {seq total seq' total' : Nat} {root : Node} {cache : SiteCache}
    (h : buildCache env p seq root total = (some (cache, total'), seq')) : cache.Whole := by
  obtain ⟨fs, b, -, hfold, rfl⟩ := buildCache_some h
  intro url d hd
  cases hdir : snapshotDir p seq with
  | none =>
    obtain ⟨data, hentry⟩ := buildCache_entries h hd
    rw [hdir] at hentry
    cases hentry
  | some bd =>
    rw [hdir] at hfold
    refine ⟨⟨bd, b.files⟩, rfl, ?_⟩
    have hall : ∀ url d, b.map.lookup url = some (.disk d) → ∀ v ∈ d.variants, (b.files.lookup v.path).isSome := by
      refine foldlM_keeps (P := fun b : Building => ∀ url d, b.map.lookup url = some (.disk d) → ∀ v ∈ d.variants,
        (b.files.lookup v.path).isSome) (fun f _ b b' hb hstep => ?_) (fun url d hd => by simp at hd) hfold
      rw [walkFound_eq, if_neg (fun h => by cases h.1)] at hstep
      cases hstep
      intro url d hd v hv
      simp only [enter, Found.entry, Found.files] at hd ⊢
      cases hu : f.usable p with
      | none =>
        rw [hu] at hd
        exact hb url d hd v hv
      | some data =>
        rw [hu, Option.bind_some, ← makeEntry_fst f.url data b.files] at hd
        simp only [makeEntry] at hd ⊢
        have hgrows := fun q hq => makeDiskEntry_grows env.compressors env.writes f.url (mimeFor f.url) data p bd b.files (q := q) hq
        have hwritten := fun d => makeDiskEntry_written env.compressors env.writes f.url (mimeFor f.url) data p bd b.files (d := d)
        generalize makeDiskEntry env.compressors env.writes f.url (mimeFor f.url) data p bd b.files = made at hd hgrows hwritten ⊢
        obtain ⟨_ | e, fs'⟩ := made
        · exact hgrows _ (hb url d hd v hv)
        · simp only [Map.lookup_insert'] at hd
          split at hd
          · cases hd
            exact hwritten d rfl v hv
          · exact hgrows _ (hb url d hd v hv)
    exact hall url d hd

/-! ## What a request opens -/

section

variable {fs : FileSys} {vhosts : Vhosts} {site : Site} {req : Request} {hostKey query decoded : Str}
  {keepAlive redirectHttps : Bool} {path : Path}

/-- Only the content stage opens files. -/
theorem opened_reached {sni : Option Str} {head : Bytes} {wantKa : Bool}
    (h : path ∈ (handleRequest fs head vhosts wantKa redirectHttps sni).opened) :
    ∃ req site decoded, Reached vhosts sni head req site decoded ∧
      handleRequest fs head vhosts wantKa redirectHttps sni =
        serveContent fs site vhosts req (normalizeHost req.fields.hostHdr) (targetQuery req.target) decoded
          (req.fields.keepAlive && wantKa) redirectHttps := by
  unfold handleRequest at h ⊢
  cases hread : readRequest head with
  | error isHead =>
    rw [hread] at h
    cases h
  | ok req =>
    rw [hread] at h
    simp only at h ⊢
    unfold handleAccepted at h ⊢
    simp only at h ⊢
    split at h
    · cases h
    rename_i hsni
    rw [if_neg hsni]
    cases hsite : vhosts.sites.lookup (normalizeHost req.fields.hostHdr) with
    | none =>
      rw [hsite] at h
      cases h
    | some site =>
      rw [hsite] at h
      simp only at h ⊢
      unfold handleSite at h ⊢
      simp only at h ⊢
      split at h
      · cases h
      rename_i hmethod
      rw [if_neg hmethod]
      split at h
      · cases h
      rename_i hpath
      rw [if_neg hpath]
      cases hdec : (percentDecode (targetPath req.target)).bind fromUtf8 with
      | none =>
        rw [hdec] at h
        cases h
      | some decoded =>
        rw [hdec] at h
        simp only at h ⊢
        cases hloc : redirectFor site vhosts (normalizeHost req.fields.hostHdr) req.target (targetPath req.target)
            (targetQuery req.target) decoded redirectHttps with
        | some location =>
          rw [hloc] at h
          cases h
        | none =>
          simp only [Bool.or_eq_true, Bool.not_eq_true', not_or, Bool.not_eq_false, decide_eq_true_eq] at hpath
          refine ⟨req, site, decoded, ⟨hread, ?_, hsite, List.isPrefixOf_iff_prefix.1 hpath.1.2, by omega, hdec⟩, rfl⟩
          rintro s rfl
          simpa using hsni

/-- An entry opens the file of one of its variants. -/
theorem serveCached_opened {e : Cached} {acceptEnc inm : Str} {isHead : Bool} {policy : Policy}
    (h : path ∈ (serveCached fs e acceptEnc inm keepAlive isHead policy).opened) :
    ∃ d, e = .disk d ∧ ∃ v ∈ d.variants, path = v.path := by
  cases e with
  | mem m =>
    unfold serveCached serveMem at h
    simp only at h
    split at h
    · cases h
    · split at h <;> cases h
  | disk d =>
    refine ⟨d, rfl, pickVariant acceptEnc d.br d.gzip d.identity, ?_, ?_⟩
    · unfold DiskEntry.variants
      rcases pickVariant_cases acceptEnc d.br d.gzip d.identity with hv | hv | hv
      · rw [hv]
        exact List.mem_cons_self
      · refine List.mem_cons_of_mem _ (List.mem_append_right _ ?_)
        rw [Option.mem_toList]
        exact hv
      · refine List.mem_cons_of_mem _ (List.mem_append_left _ ?_)
        rw [Option.mem_toList]
        exact hv
    · unfold serveCached serveDisk at h
      simp only at h
      split at h
      · cases h
      split at h
      · cases h
      split at h <;> exact List.mem_singleton.1 h

/-- A file that is not a plain one is not read. -/
theorem readTokenFile_plain (h : ¬ ∃ f, fs.token path = some f ∧ f.Plain) : readTokenFile fs path = none := by
  unfold readTokenFile
  cases hf : fs.token path with
  | none => rfl
  | some f =>
    simp only
    split
    · rfl
    · rename_i hchecks
      simp only [Bool.or_eq_true, Bool.not_eq_true', bne_iff_ne, decide_eq_true_eq, not_or, Bool.not_eq_false,
        not_not] at hchecks
      exact absurd ⟨f, hf, hchecks.1.1, hchecks.1.2, by omega⟩ h

/-- The content stage opens a snapshot file of the site's cache, or a token of its root. -/
theorem serveContent_opened
    (h : path ∈ (serveContent fs site vhosts req hostKey query decoded keepAlive redirectHttps).opened) :
    (∃ url d, site.cache.map.lookup url = some (.disk d) ∧ ∃ v ∈ d.variants, path = v.path) ∨
    ∃ root tok, site.root = some root ∧ decoded = acmePrefix ++ tok ∧ path = tokenPath root tok ∧ IsToken tok ∧
      PlainParents fs root ∧ ((¬ ∃ f, fs.token path = some f ∧ f.Plain) →
        (serveContent fs site vhosts req hostKey query decoded keepAlive redirectHttps).out =
          sendError site.policy.errors.notFound keepAlive req.isHead) := by
  unfold serveContent at h ⊢
  simp only at h ⊢
  by_cases hacme : acmePrefix.isPrefixOf decoded = true
  · rw [if_pos hacme] at h ⊢
    cases hroot : site.root with
    | none =>
      rw [hroot] at h
      cases h
    | some root =>
      obtain ⟨tok, rfl⟩ := List.isPrefixOf_iff_prefix.1 hacme
      rw [hroot] at h
      simp only at h ⊢
      rcases serveAcmeToken_cases fs root tok keepAlive req.isHead site.policy with ⟨-, hserve⟩ | ⟨htok, hparents, hserve⟩
      · rw [hserve] at h
        cases h
      · have hpath : path = tokenPath root tok := by
          rw [hserve] at h
          split at h <;> exact List.mem_singleton.1 h
        refine .inr ⟨root, tok, rfl, rfl, hpath, htok, hparents, fun hno => ?_⟩
        rw [hpath] at hno
        rw [hserve, readTokenFile_plain hno]
  · rw [if_neg hacme] at h
    refine .inl ?_
    cases hres : resolve site.cache.map decoded with
    | none =>
      rw [hres] at h
      cases h
    | some r =>
      rw [hres] at h
      cases r with
      | dirIndex => cases h
      | entry e =>
        obtain ⟨d, rfl, hv⟩ := serveCached_opened h
        obtain ⟨url, -, hurl⟩ := List.exists_of_findSome?_eq_some (resolve_entry hres)
        exact ⟨url, d, hurl, hv⟩

/-- A request opens snapshot files recorded in its own site's cache, or the file named by one component of the
token alphabet in the challenge directory of that site's root, below plain directories, and serves the latter
only when it is a regular file with one link and the size of a token. A build on disk writes, and records,
paths strictly inside its own directory only. -/
theorem handleRequest_confined (fs : FileSys) (head : Bytes) (vhosts : Vhosts) (wantKa redirectHttps : Bool)
    (sni : Option Str) :
    (∀ path ∈ (handleRequest fs head vhosts wantKa redirectHttps sni).opened,
      ∃ req site decoded, Reached vhosts sni head req site decoded ∧
        ((∃ url d, site.cache.map.lookup url = some (.disk d) ∧ ∃ v ∈ d.variants, path = v.path) ∨
        ∃ root tok, site.root = some root ∧ decoded = acmePrefix ++ tok ∧ path = tokenPath root tok ∧ IsToken tok ∧
          PlainParents fs root ∧ ((¬ ∃ f, fs.token path = some f ∧ f.Plain) →
            (handleRequest fs head vhosts wantKa redirectHttps sni).out =
              sendError site.policy.errors.notFound (req.fields.keepAlive && wantKa) req.isHead))) ∧
    ∀ (env : BuildEnv) (p : Policy) (seq : Nat) (root : Node) (total : Nat), p.storage = .disk → Slashless root →
      (∀ env' : BuildEnv, env'.compressors = env.compressors → env'.mkdir = env.mkdir →
        (∀ path, Inside (buildDirPath p seq) path → env'.writes path = env.writes path) →
        buildCache env' p seq root total = buildCache env p seq root total) ∧
      ∀ cache total' seq', buildCache env p seq root total = (some (cache, total'), seq') →
        ∃ files, cache.buildDir = some ⟨buildDirPath p seq, files⟩ ∧
          (∀ path content, files.lookup path = some content → Inside (buildDirPath p seq) path) ∧
          ∀ url d, cache.map.lookup url = some (.disk d) → ∀ v ∈ d.variants, Inside (buildDirPath p seq) v.path := by
  refine ⟨fun path hpath => ?_, fun env p seq root total hs hroot => ⟨fun env' hc hm hw => ?_, ?_⟩⟩
  · obtain ⟨req, site, decoded, hreached, hreply⟩ := opened_reached hpath
    rw [hreply] at hpath ⊢
    exact ⟨req, site, decoded, hreached, serveContent_opened hpath⟩
  · exact buildCache_congr hs hroot hc hm hw total
  · exact fun cache total' seq' h => buildCache_inside hs hroot h

end

/-- A page in a directory of its own. -/
def shelf : Node := .dir (some [(str "a", .dir (some [(str "b.html", .file ⟨1, none⟩ (some (str "b")))]))])

def shelfEnv : BuildEnv := ⟨⟨fun data _ => data, fun data _ => data⟩, fun _ => true, fun _ => true⟩

def shelfSite : Site := ⟨0, some (str "/w"), .empty, false, false, default, .withHeaders .default .default .disk (str "/snap")⟩

def Cached.onDisk : Cached → Option DiskEntry
  | .mem _ => none
  | .disk d => some d

/-- The page's snapshot is below the directory of its build, also where nothing else could be written; and a request
opens that file. -/
theorem handleRequest_confined_shelf : ∃ cache total d, (buildCache shelfEnv shelfSite.policy 0 shelf 0).1 = some (cache, total) ∧
    cache.map.lookup (str "/a/b.html") = some (.disk d) ∧ Inside (buildDirPath shelfSite.policy 0) d.identity.path ∧
    (handleRequest oneToken (str "GET /a/b.html HTTP/1.1\r\nHost: a.example\r\n\r\n")
      { movedTable with sites := (∅ : Sites).insert (str "a.example") { shelfSite with cache } } true false none).opened =
        [d.identity.path] ∧
    ∀ other : Path → Bool, (∀ path, Inside (buildDirPath shelfSite.policy 0) path → other path = true) →
      buildCache { shelfEnv with writes := other } shelfSite.policy 0 shelf 0 = buildCache shelfEnv shelfSite.policy 0 shelf 0 := by
  have hroot : Slashless shelf := by
    refine .dir (by decide) (List.forall_mem_singleton.2 (.dir (by decide) (List.forall_mem_singleton.2 (.leaf ?_))))
    intro entries h
    cases h
  obtain ⟨⟨cache, total⟩, hbuilt, hany⟩ := (Option.any_eq_true _ _).1 (show
    (buildCache shelfEnv shelfSite.policy 0 shelf 0).1.any (fun built =>
      ((built.1.map.lookup (str "/a/b.html")).bind Cached.onDisk).any fun d =>
        (handleRequest oneToken (str "GET /a/b.html HTTP/1.1\r\nHost: a.example\r\n\r\n")
          { movedTable with sites := (∅ : Sites).insert (str "a.example") { shelfSite with cache := built.1 } }
          true false none).opened == [d.identity.path]) = true by decide +kernel)
  obtain ⟨d, hd, hopened⟩ := (Option.any_eq_true _ _).1 hany
  obtain ⟨e, he, hdisk⟩ := Option.bind_eq_some_iff.1 hd
  cases e with
  | mem m => cases hdisk
  | disk d =>
    cases hdisk
    obtain ⟨hcongr, hinside⟩ := (handleRequest_confined oneToken [] movedTable true false none).2 shelfEnv shelfSite.policy 0
      shelf 0 rfl hroot
    obtain ⟨files, -, -, hpaths⟩ := hinside cache total _ (pair_of_fst hbuilt)
    refine ⟨cache, total, d, hbuilt, he, hpaths _ d he d.identity List.mem_cons_self, beq_iff_eq.1 hopened, fun other hin => ?_⟩
    exact hcongr _ rfl rfl hin

example : (handleRequest oneToken (str "GET /.well-known/acme-challenge/t HTTP/1.1\r\nHost: a.example\r\n\r\n") movedTable
    true true none).opened = [tokenPath (str "/w") (str "t")] := by decide +kernel

end BareServer
