/-
What a build holds. Under every URL it holds the entry of the file at that URL; in disk mode every
body an entry points at stands in the snapshot, since no two variants of a tree share a path.
-/
import BareServer.Cache.WalkSpec

namespace BareServer

open BareServer.Lib

/-! ## Snapshot paths -/

/-- A directory name of a snapshot: one component. -/
structure IsNamespace (ns : Str) : Prop where
  nonempty : ns ≠ []
  noSlash : 47 ∉ ns

/-- The directory a name is joined to, with its separator. -/
def withSeparator (base : Path) : Path :=
  if base.isEmpty || (str "/").isSuffixOf base then base else base ++ str "/"

theorem not_absolute {rest : Path} (h : rest.head? ≠ some 47) : (str "/").isPrefixOf rest = false := by
  cases rest with
  | nil => rfl
  | cons b t =>
    have hb : (47 == b) = false := by
      rw [beq_eq_false_iff_ne]
      rintro rfl
      exact h rfl
    show (47 == b && List.isPrefixOf [] t) = false
    rw [hb, Bool.false_and]

theorem join_relative {base rest : Path} (h : rest.head? ≠ some 47) : join base rest = withSeparator base ++ rest := by
  unfold join withSeparator
  rw [not_absolute h, if_neg Bool.false_ne_true]
  split <;> rfl

theorem IsNamespace.head {ns : Str} (h : IsNamespace ns) : ns.head? ≠ some 47 := by
  cases ns with
  | nil => exact absurd rfl h.nonempty
  | cons b t =>
    rw [List.head?_cons, ne_eq, Option.some.injEq]
    rintro rfl
    exact h.noSlash List.mem_cons_self

theorem withSeparator_component {pre ns : Str} (h : IsNamespace ns) : withSeparator (pre ++ ns) = pre ++ ns ++ str "/" := by
  have hsuf : (str "/").isSuffixOf (pre ++ ns) = false := by
    rw [Bool.eq_false_iff, ne_eq, List.isSuffixOf_iff_suffix]
    rintro ⟨t, ht⟩
    have hlast := congrArg List.getLast? ht
    rw [List.getLast?_append_of_ne_nil _ h.nonempty] at hlast
    rw [str_slash, List.getLast?_append_of_ne_nil _ (by simp)] at hlast
    exact h.noSlash (List.mem_of_getLast? hlast.symm)
  have hne : (pre ++ ns).isEmpty = false := by simp [h.nonempty]
  rw [withSeparator, hsuf, hne]
  rfl

/-- Where a variant stands: the namespace, a separator, and the URL without its slash. -/
theorem snapshotPath_eq (bd : Path) {ns t : Str} (hns : IsNamespace ns) (ht : t.head? ≠ some 47) :
    snapshotPath bd ns (47 :: t) = withSeparator bd ++ (ns ++ 47 :: t) := by
  have hdrop : (47 :: t : Str).dropWhile (· == 47) = t := by
    rw [List.dropWhile_cons_of_pos (by rfl)]
    cases t with
    | nil => rfl
    | cons b t => exact List.dropWhile_cons_of_neg (by simpa using fun h => ht (by rw [h]; rfl))
  rw [snapshotPath, hdrop, join_relative hns.head, join_relative ht, withSeparator_component hns]
  simp only [List.append_assoc]
  rfl

/-- No two pairs of a namespace and a URL share a path. -/
theorem snapshotPath_injective {bd : Path} {ns ns' url url' : Str} (hns : IsNamespace ns) (hns' : IsNamespace ns')
    (hu : IsUrl url) (hu' : IsUrl url') (h : snapshotPath bd ns url = snapshotPath bd ns' url') :
    ns = ns' ∧ url = url' := by
  obtain ⟨t, rfl, ht⟩ := hu
  obtain ⟨t', rfl, ht'⟩ := hu'
  rw [snapshotPath_eq bd hns ht, snapshotPath_eq bd hns' ht'] at h
  have hcat := List.append_cancel_left h
  have hname := congrArg (List.takeWhile (· != 47)) hcat
  rw [takeWhile_component hns.noSlash, takeWhile_component hns'.noSlash] at hname
  subst hname
  exact ⟨rfl, List.append_cancel_left hcat⟩

/-! ## One entry on disk -/

/-- The bodies of one file, each under its namespace. -/
def bodies (c : Compressors) (mime : Str) (data : Bytes) (p : Policy) : List (Str × Bytes) :=
  (str "identity", data) :: ((compressVariants c mime data p).1.toList.map (str "gzip", ·) ++
    (compressVariants c mime data p).2.toList.map (str "br", ·))

theorem isNamespace_of_mem {c : Compressors} {mime : Str} {data : Bytes} {p : Policy} {nb : Str × Bytes}
    (h : nb ∈ bodies c mime data p) : IsNamespace nb.1 := by
  have hns : nb.1 = str "identity" ∨ nb.1 = str "gzip" ∨ nb.1 = str "br" := by
    simp only [bodies, List.mem_cons, List.mem_append, List.mem_map] at h
    rcases h with rfl | ⟨_, _, rfl⟩ | ⟨_, _, rfl⟩ <;> simp
  rcases hns with h | h | h <;> rw [h] <;> exact ⟨by decide, by decide⟩

def canSnapshot (env : BuildEnv) (mime : Str) (data : Bytes) (p : Policy) (bd : Path) (url : Str) : Bool :=
  (bodies env.compressors mime data p).all fun nb => env.writes (snapshotPath bd nb.1 url)

/-- Does the snapshot hold every body of a file? -/
def Stored (env : BuildEnv) (mime : Str) (data : Bytes) (p : Policy) (bd : Path) (url : Str) (files : Files) : Prop :=
  ∀ nb ∈ bodies env.compressors mime data p, files.lookup (snapshotPath bd nb.1 url) = some nb.2

def diskVariant (mime : Str) (vary : Bool) (cc sh : Str) (path : Path) (body : Bytes) (encoding : Option Str) :
    DiskVariant where
  headerKa := buildHeader mime body.length (etagFor body) encoding vary cc sh
  path
  len := body.length
  etag := etagFor body
  encoding

/-- The entry of a file all of whose bodies were written. -/
def diskEntry (c : Compressors) (url mime : Str) (data : Bytes) (p : Policy) (bd : Path) : DiskEntry :=
  let gz := (compressVariants c mime data p).1
  let br := (compressVariants c mime data p).2
  let vary := gz.isSome || br.isSome
  let cc := p.cacheControlFor url
  let sh := p.securityHeaders
  { identity := diskVariant mime vary cc sh (snapshotPath bd (str "identity") url) data none
    gzip := gz.map fun g => diskVariant mime vary cc sh (snapshotPath bd (str "gzip") url) g (some (str "gzip"))
    br := br.map fun b => diskVariant mime vary cc sh (snapshotPath bd (str "br") url) b (some (str "br"))
    cacheControl := cc
    vary }

theorem writeVariant_eq (writes : Path → Bool) (mime : Str) (vary : Bool) (cc sh : Str) (path : Path) (body : Bytes)
    (encoding : Option Str) (files : Files) : writeVariant writes mime vary cc sh path body encoding files =
      if writes path then (some (diskVariant mime vary cc sh path body encoding), files.insert path body)
      else (none, files) := rfl

/-- Making an entry: its record when every body can be written, and a snapshot that changes at this
file's own paths only. -/
structure MadeEntry (env : BuildEnv) (url mime : Str) (data : Bytes) (p : Policy) (bd : Path) (files : Files)
    (made : Option DiskEntry × Files) : Prop where
  entry : made.1 = if canSnapshot env mime data p bd url then some (diskEntry env.compressors url mime data p bd) else none
  stored : canSnapshot env mime data p bd url = true → IsUrl url → Stored env mime data p bd url made.2
  frame : ∀ q, (∀ ns, IsNamespace ns → q ≠ snapshotPath bd ns url) → made.2.lookup q = files.lookup q

theorem makeDiskEntry_made (env : BuildEnv) (url mime : Str) (data : Bytes) (p : Policy) (bd : Path) (files : Files) :
    MadeEntry env url mime data p bd files
      (makeDiskEntry env.compressors env.writes url mime data p bd files) := by
  have hid : IsNamespace (str "identity") := ⟨by decide, by decide⟩
  have hgz : IsNamespace (str "gzip") := ⟨by decide, by decide⟩
  have hbr : IsNamespace (str "br") := ⟨by decide, by decide⟩
  -- the paths of two namespaces differ
  have hne : ∀ {a b : Str}, IsNamespace a → IsNamespace b → a ≠ b → IsUrl url →
      snapshotPath bd a url ≠ snapshotPath bd b url :=
    fun ha hb hab hu h => hab (snapshotPath_injective ha hb hu hu h).1
  have h1 := hne hid hgz (by decide)
  have h2 := hne hid hbr (by decide)
  have h3 := hne hgz hbr (by decide)
  unfold makeDiskEntry
  rcases hc : compressVariants env.compressors mime data p with ⟨gz, br⟩
  cases hi : env.writes (snapshotPath bd (str "identity") url) with
  | false =>
    refine ⟨?_, ?_, ?_⟩ <;> simp [writeVariant_eq, canSnapshot, bodies, hi]
  | true =>
    rcases gz with - | g <;> rcases br with - | b <;>
      cases hg : env.writes (snapshotPath bd (str "gzip") url) <;>
      cases hb : env.writes (snapshotPath bd (str "br") url) <;>
      refine ⟨?_, ?_, ?_⟩ <;>
      simp +contextual [writeVariant_eq, writeOptional, canSnapshot, Stored, bodies, diskEntry, hc, hi, hg, hb,
        Map.lookup_insert', h1, h2, h3, hid, hgz, hbr]

/-! ## One file of a build -/

/-- The bytes of a file that a cache may hold: readable, and within the size limit. -/
def Found.usable (p : Policy) (f : Found) : Option Bytes := if f.info.size ≤ p.t.maxFileSize then f.data else none

def entryFor (env : BuildEnv) (p : Policy) (buildDir : Option Path) (url : Str) (data : Bytes) : Option Cached :=
  match buildDir with
  | none => some (.mem (makeCached env.compressors url (mimeFor url) data p))
  | some bd =>
    if canSnapshot env (mimeFor url) data p bd url then
      some (.disk (diskEntry env.compressors url (mimeFor url) data p bd))
    else none

theorem entryFor_cases {env : BuildEnv} {p : Policy} {buildDir : Option Path} {url : Str} {data : Bytes} {e : Cached}
    (h : entryFor env p buildDir url data = some e) :
    e = .mem (makeCached env.compressors url (mimeFor url) data p) ∨
      ∃ bd, e = .disk (diskEntry env.compressors url (mimeFor url) data p bd) := by
  cases buildDir with
  | none => exact .inl (Option.some.inj h).symm
  | some bd =>
    unfold entryFor at h
    simp only at h
    split at h
    · exact .inr ⟨bd, (Option.some.inj h).symm⟩
    · cases h

/-- In disk mode, the snapshot of `url` holds its bodies. -/
def Snapshot (env : BuildEnv) (p : Policy) (buildDir : Option Path) (url : Str) (data : Bytes) (files : Files) : Prop :=
  ∀ bd, buildDir = some bd → Stored env (mimeFor url) data p bd url files

section

variable (env : BuildEnv) (p : Policy) (buildDir : Option Path)

namespace Found

def entry (f : Found) : Option Cached := (f.usable p).bind (entryFor env p buildDir f.url)

def kept (f : Found) : Nat := ((f.entry env p buildDir).map Cached.retainedBytes).getD 0

def files (f : Found) (files : Files) : Files :=
  match f.usable p with
  | some data => (makeEntry env p buildDir f.url data files).2
  | none => files

end Found

def enter (m : Cache) (f : Found) : Cache :=
  match f.entry env p buildDir with
  | some e => m.insert f.url e
  | none => m

end

section

variable {env : BuildEnv} {p : Policy} {buildDir : Option Path} {f : Found} {b b' : Building}

theorem Found.kept_of_unusable (h : f.usable p = none) : f.kept env p buildDir = 0 := by
  rw [Found.kept, Found.entry, h]
  rfl

theorem Found.files_of_unusable (h : f.usable p = none) (fs : Files) : f.files env p buildDir fs = fs := by
  rw [Found.files, h]

theorem enter_of_unusable (h : f.usable p = none) (m : Cache) : enter env p buildDir m f = m := by
  rw [enter, Found.entry, h]
  rfl

theorem makeEntry_fst (url : Str) (data : Bytes) (fs : Files) :
    (makeEntry env p buildDir url data fs).1 = entryFor env p buildDir url data := by
  cases buildDir with
  | none => rfl
  | some bd =>
    have hentry := (makeDiskEntry_made env url (mimeFor url) data p bd fs).entry
    unfold makeEntry entryFor
    simp only
    generalize makeDiskEntry env.compressors env.writes url (mimeFor url) data p bd fs = made at hentry ⊢
    obtain ⟨made, fs'⟩ := made
    simp only at hentry
    subst hentry
    cases canSnapshot env (mimeFor url) data p bd url <;> rfl

/-- A snapshot changes at a file's own paths only. -/
theorem Found.files_frame {bd q : Path} (hdir : buildDir = some bd) (hq : ∀ ns, IsNamespace ns → q ≠ snapshotPath bd ns f.url)
    (fs : Files) : (f.files env p buildDir fs).lookup q = fs.lookup q := by
  subst hdir
  unfold Found.files
  cases f.usable p with
  | none => rfl
  | some data =>
    have hframe := (makeDiskEntry_made env f.url (mimeFor f.url) data p bd fs).frame q hq
    simp only [makeEntry]
    generalize makeDiskEntry env.compressors env.writes f.url (mimeFor f.url) data p bd fs = made at hframe ⊢
    obtain ⟨_ | _, fs'⟩ := made <;> exact hframe

/-- The bodies of a file that gets an entry are in its snapshot. -/
theorem Found.files_snapshot {data : Bytes} {e : Cached} (hu : f.usable p = some data)
    (he : entryFor env p buildDir f.url data = some e) (hurl : IsUrl f.url) (fs : Files) :
    Snapshot env p buildDir f.url data (f.files env p buildDir fs) := by
  rintro bd rfl
  have hcan : canSnapshot env (mimeFor f.url) data p bd f.url = true := by
    unfold entryFor at he
    simp only at he
    by_contra hno
    rw [if_neg hno] at he
    cases he
  have hstored := (makeDiskEntry_made env f.url (mimeFor f.url) data p bd fs).stored hcan hurl
  unfold Found.files
  rw [hu]
  simp only [makeEntry]
  generalize makeDiskEntry env.compressors env.writes f.url (mimeFor f.url) data p bd fs = made at hstored ⊢
  obtain ⟨_ | _, fs'⟩ := made <;> exact hstored

/-- One file of the pass: it fails where a file in memory does not fit, by its source or by what it retains, and
otherwise enters the file's entry and adds what it retains. -/
theorem walkFound_eq : walkFound env p buildDir b f =
    if buildDir = none ∧ f.info.size ≤ p.t.maxFileSize ∧
      p.t.maxTotalBytes < b.total + max f.info.size (f.kept env p buildDir) then none
    else some ⟨enter env p buildDir b.map f, b.total + f.kept env p buildDir, f.files env p buildDir b.files⟩ := by
  unfold walkFound walkFile
  by_cases hsize : f.info.size > p.t.maxFileSize
  · have hu : f.usable p = none := by rw [Found.usable, if_neg (by omega)]
    rw [if_pos hsize, if_neg (by omega), enter_of_unusable hu, Found.kept_of_unusable hu, Found.files_of_unusable hu]
    rfl
  · rw [if_neg hsize]
    have hu : f.usable p = f.data := by rw [Found.usable, if_pos (by omega)]
    cases hd : f.data with
    | none =>
      rw [hd] at hu
      rw [enter_of_unusable hu, Found.kept_of_unusable hu, Found.files_of_unusable hu]
      refine if_congr ?_ rfl rfl
      cases buildDir with
      | none =>
        simp
        omega
      | some bd => simp
    | some data =>
      rw [hd] at hu
      have hfst := @makeEntry_fst env p buildDir f.url data b.files
      simp only [enter, Found.kept, Found.entry, Found.files, hu, Option.bind_some, ← hfst]
      generalize makeEntry env p buildDir f.url data b.files = made at hfst ⊢
      obtain ⟨entry, fs⟩ := made
      cases buildDir with
      | none =>
        -- in memory there is always an entry, tested on top of the source
        cases hfst
        simp only [Option.isNone_none, Bool.true_and, decide_eq_true_eq, Option.map_some, Option.getD_some]
        split
        · rw [if_pos ⟨trivial, by omega, by omega⟩]
        · refine if_congr ?_ rfl rfl
          constructor
          · exact fun hover => ⟨trivial, by omega, by omega⟩
          · rintro ⟨-, -, hover⟩
            omega
      | some bd =>
        simp only [Option.isNone_some, Bool.false_and, Bool.false_eq_true, if_false]
        rw [if_neg (fun h => by cases h.1)]
        cases entry <;> rfl

/-- What one file of the pass does: nothing when it is not usable, and otherwise enter its entry, if it
gets one, with a snapshot that changes at its own paths only. -/
structure FileStep (env : BuildEnv) (p : Policy) (buildDir : Option Path) (f : Found) (b b' : Building) : Prop where
  unusable : f.usable p = none → b' = b
  dropped : ∀ data, f.usable p = some data → entryFor env p buildDir f.url data = none → b'.map = b.map
  entered : ∀ data e, f.usable p = some data → entryFor env p buildDir f.url data = some e →
    b'.map = b.map.insert f.url e ∧ (IsUrl f.url → Snapshot env p buildDir f.url data b'.files)
  frame : ∀ bd q, buildDir = some bd → (∀ ns, IsNamespace ns → q ≠ snapshotPath bd ns f.url) →
    b'.files.lookup q = b.files.lookup q

theorem walkFound_step (h : walkFound env p buildDir b f = some b') : FileStep env p buildDir f b b' := by
  rw [walkFound_eq] at h
  split at h
  · cases h
  cases h
  constructor
  · intro hu
    rw [enter_of_unusable hu, Found.kept_of_unusable hu, Found.files_of_unusable hu]
    rfl
  · intro data hu he
    simp only [enter, Found.entry, hu, Option.bind_some, he]
  · intro data e hu he
    refine ⟨?_, fun hurl => Found.files_snapshot hu he hurl b.files⟩
    simp only [enter, Found.entry, hu, Option.bind_some, he]
  · exact fun bd q hdir hq => Found.files_frame hdir hq b.files

end

/-! ## A whole build -/

/-- Everything a cache holds is the entry of a file passed. -/
def Entered (env : BuildEnv) (p : Policy) (buildDir : Option Path) (done : List Found) (b : Building) : Prop :=
  ∀ url e, b.map.lookup url = some e →
    ∃ f ∈ done, f.url = url ∧ ∃ data, f.usable p = some data ∧ entryFor env p buildDir url data = some e

theorem entered_step {env : BuildEnv} {p : Policy} {buildDir : Option Path} {done : List Found} {f : Found}
    {b b' : Building} (hs : FileStep env p buildDir f b b') (h : Entered env p buildDir done b) :
    Entered env p buildDir (done ++ [f]) b' := by
  have hold : ∀ url e, b.map.lookup url = some e → ∃ g ∈ done ++ [f], g.url = url ∧ ∃ data, g.usable p = some data ∧
      entryFor env p buildDir url data = some e := by
    intro url e he
    obtain ⟨g, hg, hrest⟩ := h url e he
    exact ⟨g, List.mem_append_left _ hg, hrest⟩
  intro url e he
  cases hu : f.usable p with
  | none => rw [hs.unusable hu] at he; exact hold url e he
  | some data =>
    cases hentry : entryFor env p buildDir f.url data with
    | none => rw [hs.dropped data hu hentry] at he; exact hold url e he
    | some e' =>
      rw [(hs.entered data e' hu hentry).1, Map.lookup_insert'] at he
      split at he
      · rename_i hurl
        subst hurl
        cases he
        exact ⟨f, by simp, rfl, data, hu, hentry⟩
      · exact hold url e he

/-- Every file passed that gets an entry has it in the cache, and its bodies in the snapshot. -/
def Kept (env : BuildEnv) (p : Policy) (buildDir : Option Path) (done : List Found) (b : Building) : Prop :=
  ∀ f ∈ done, ∀ data e, f.usable p = some data → entryFor env p buildDir f.url data = some e →
    b.map.lookup f.url = some e ∧ Snapshot env p buildDir f.url data b.files

theorem snapshot_frame {env : BuildEnv} {p : Policy} {buildDir : Option Path} {f g : Found} {b b' : Building}
    (hs : FileStep env p buildDir f b b') (hf : IsUrl f.url) (hg : IsUrl g.url) (hne : g.url ≠ f.url) {data : Bytes}
    (h : Snapshot env p buildDir g.url data b.files) : Snapshot env p buildDir g.url data b'.files := by
  intro bd hbd nb hnb
  rw [hs.frame bd _ hbd fun ns hns heq => hne (snapshotPath_injective (isNamespace_of_mem hnb) hns hg hf heq).2]
  exact h bd hbd nb hnb

theorem kept_step {env : BuildEnv} {p : Policy} {buildDir : Option Path} {done : List Found} {f : Found}
    {b b' : Building} (hs : FileStep env p buildDir f b b') (hf : IsUrl f.url) (hdone : ∀ g ∈ done, IsUrl g.url)
    (huniq : ∀ g ∈ done, g.url = f.url → g = f) (h : Kept env p buildDir done b) :
    Kept env p buildDir (done ++ [f]) b' := by
  have hnew : ∀ data e, f.usable p = some data → entryFor env p buildDir f.url data = some e →
      b'.map.lookup f.url = some e ∧ Snapshot env p buildDir f.url data b'.files := by
    intro data e hu he
    obtain ⟨hmap, hsnap⟩ := hs.entered data e hu he
    exact ⟨by rw [hmap, Map.lookup_insert', if_pos rfl], hsnap hf⟩
  intro g hg data e hu he
  rcases List.mem_append.1 hg with hg | hg
  · by_cases hgf : g.url = f.url
    · -- the same file met again
      cases huniq g hg hgf
      exact hnew data e hu he
    · obtain ⟨hmap, hsnap⟩ := h g hg data e hu he
      refine ⟨?_, snapshot_frame hs hf (hdone g hg) hgf hsnap⟩
      cases hfu : f.usable p with
      | none => rw [hs.unusable hfu]; exact hmap
      | some d =>
        cases hfe : entryFor env p buildDir f.url d with
        | none => rw [hs.dropped d hfu hfe]; exact hmap
        | some e' => rw [(hs.entered d e' hfu hfe).1, Map.lookup_insert', if_neg hgf]; exact hmap
  · rw [List.mem_singleton] at hg
    subst hg
    exact hnew data e hu he

/-- A property of the files passed and the build so far that every step keeps holds after the pass;
`all` are the files of the whole pass. -/
theorem foldlM_walkFound {env : BuildEnv} {p : Policy} {buildDir : Option Path} (all : List Found)
    {P : List Found → Building → Prop}
    (step : ∀ done f b b', (∀ g ∈ done, g ∈ all) → f ∈ all → FileStep env p buildDir f b b' → P done b →
      P (done ++ [f]) b') :
    ∀ (fs done : List Found) (b b' : Building), (∀ g ∈ done, g ∈ all) → (∀ g ∈ fs, g ∈ all) → P done b →
      fs.foldlM (walkFound env p buildDir) b = some b' → P (done ++ fs) b'
  | [], done, b, b', _, _, hP, h => by
    cases h
    rwa [List.append_nil]
  | f :: fs, done, b, b', hdone, hfs, hP, h => by
    rw [List.foldlM_cons] at h
    obtain ⟨b1, h1, h2⟩ := Option.bind_eq_some_iff.1 h
    have hf := hfs f List.mem_cons_self
    have hdone' : ∀ g ∈ done ++ [f], g ∈ all := by
      intro g hg
      rcases List.mem_append.1 hg with hg | hg
      · exact hdone g hg
      · rw [List.mem_singleton.1 hg]; exact hf
    have := foldlM_walkFound all step fs (done ++ [f]) b1 b' hdone' (fun g hg => hfs g (List.mem_cons_of_mem _ hg))
      (step done f b b1 hdone hf (walkFound_step h1) hP) h2
    rwa [List.append_assoc] at this

def snapshotDir (p : Policy) (seq : Nat) : Option Path :=
  match p.storage with
  | .memory => none
  | .disk => some (buildDirPath p seq)

theorem pair_of_fst {α β : Type} {x : α × β} {a : α} (h : x.1 = a) : x = (a, x.2) := Prod.ext h rfl

/-- A built cache is a pass over the files of its root. -/
theorem buildCache_some {env : BuildEnv} {p : Policy} {seq total seq' total' : Nat} {root : Node} {cache : SiteCache}
    (h : buildCache env p seq root total = (some (cache, total'), seq')) :
    ∃ fs b, found [] root = some fs ∧ fs.foldlM (walkFound env p (snapshotDir p seq)) ⟨∅, total, ∅⟩ = some b ∧
      cache = ⟨b.map, (snapshotDir p seq).map fun dir => ⟨dir, b.files⟩⟩ := by
  have hroot : ∃ entries, root = .dir (some entries) := by
    unfold buildCache at h
    split at h
    · exact ⟨_, rfl⟩
    · simp at h
  obtain ⟨entries, rfl⟩ := hroot
  unfold snapshotDir
  unfold buildCache at h
  cases hs : p.storage with
  | memory =>
    simp only [hs, walk_eq] at h
    cases hf : found [] (.dir (some entries)) with
    | none => rw [hf] at h; simp at h
    | some fs =>
      rw [hf, Option.bind_some] at h
      cases hb : fs.foldlM (walkFound env p none) ⟨∅, total, ∅⟩ with
      | none => rw [hb] at h; simp at h
      | some b =>
        rw [hb] at h
        cases h
        exact ⟨fs, b, rfl, hb, rfl⟩
  | disk =>
    simp only [hs, walk_eq] at h
    split at h
    · cases hf : found [] (.dir (some entries)) with
      | none => rw [hf] at h; simp at h
      | some fs =>
        rw [hf, Option.bind_some] at h
        cases hb : fs.foldlM (walkFound env p (some (buildDirPath p seq))) ⟨∅, total, ∅⟩ with
        | none => rw [hb] at h; simp at h
        | some b =>
          rw [hb] at h
          cases h
          exact ⟨fs, b, rfl, hb, rfl⟩
    · simp at h

/-- Whatever the tree, every entry of a built cache is that of some file's bytes. -/
theorem buildCache_entries {env : BuildEnv} {p : Policy} {seq total seq' total' : Nat} {root : Node} {cache : SiteCache}
    (h : buildCache env p seq root total = (some (cache, total'), seq')) {url : Str} {e : Cached}
    (he : cache.map.lookup url = some e) : ∃ data, entryFor env p (snapshotDir p seq) url data = some e := by
  obtain ⟨fs, b, -, hfold, rfl⟩ := buildCache_some h
  have hent : Entered env p (snapshotDir p seq) ([] ++ fs) b :=
    foldlM_walkFound fs (fun done f b b' _ _ hs hP => entered_step hs hP) fs [] _ _ nofun (fun _ h => h)
      (fun url e he => by simp at he) hfold
  obtain ⟨f, -, -, data, -, hd⟩ := hent url e he
  exact ⟨data, hd⟩

/-- What a cache holds of a tree with distinct names: the entries of its usable files, each under the
file's URL, and every body they point at in the snapshot. -/
structure Holds (env : BuildEnv) (p : Policy) (seq : Nat) (root : Node) (cache : SiteCache) : Prop where
  lookup : ∀ url e, cache.map.lookup url = some e ↔ ∃ names info data,
    At root names (.file info (some data)) ∧ url = urlOf names ∧ info.size ≤ p.t.maxFileSize ∧
      entryFor env p (snapshotDir p seq) url data = some e
  stored : ∀ names info data, At root names (.file info (some data)) → info.size ≤ p.t.maxFileSize →
    (entryFor env p (snapshotDir p seq) (urlOf names) data).isSome → ∀ bd, snapshotDir p seq = some bd →
    ∃ files, cache.buildDir = some ⟨bd, files⟩ ∧ Stored env (mimeFor (urlOf names)) data p bd (urlOf names) files

theorem buildCache_holds {env : BuildEnv} {p : Policy} {seq total seq' total' : Nat} {root : Node} {cache : SiteCache}
    (hw : WellNamed root) (h : buildCache env p seq root total = (some (cache, total'), seq')) :
    Holds env p seq root cache := by
  obtain ⟨fs, b, hfs, hfold, rfl⟩ := buildCache_some h
  have hent : Entered env p (snapshotDir p seq) ([] ++ fs) b :=
    foldlM_walkFound fs (fun done f b b' _ _ hs hP => entered_step hs hP) fs [] _ _ nofun (fun _ h => h)
      (fun url e he => by simp at he) hfold
  have hkept : Kept env p (snapshotDir p seq) ([] ++ fs) b :=
    foldlM_walkFound fs (fun done f b b' hdone hf hs hP =>
      kept_step hs (found_isUrl hw hfs hf) (fun g hg => found_isUrl hw hfs (hdone g hg))
        (fun g hg hu => found_unique hw hfs (hdone g hg) hf hu) hP) fs [] _ _ nofun (fun _ h => h) nofun hfold
  rw [List.nil_append] at hent hkept
  -- a usable file of the list is a readable file of the tree within the limit
  have husable : ∀ (f : Found) data, f.usable p = some data ↔ f.info.size ≤ p.t.maxFileSize ∧ f.data = some data := by
    intro f data
    unfold Found.usable
    split <;> simp_all
  have hmem := mem_found [] root hw fs hfs
  refine ⟨fun url e => ⟨fun he => ?_, ?_⟩, ?_⟩
  · obtain ⟨f, hf, rfl, data, hu, hentry⟩ := hent url e he
    obtain ⟨hsize, hdata⟩ := (husable f data).1 hu
    obtain ⟨names, hat, hurl⟩ := (hmem f).1 hf
    rw [hdata] at hat
    exact ⟨names, f.info, data, hat, hurl, hsize, hentry⟩
  · rintro ⟨names, info, data, hat, rfl, hsize, hentry⟩
    have hf : (⟨urlOf names, info, some data⟩ : Found) ∈ fs := (hmem _).2 ⟨names, hat, rfl⟩
    exact (hkept _ hf data e ((husable _ _).2 ⟨hsize, rfl⟩) hentry).1
  · intro names info data hat hsize hsome bd hbd
    obtain ⟨e, hentry⟩ := Option.isSome_iff_exists.1 hsome
    have hf : (⟨urlOf names, info, some data⟩ : Found) ∈ fs := (hmem _).2 ⟨names, hat, rfl⟩
    have hsnap := (hkept _ hf data e ((husable _ _).2 ⟨hsize, rfl⟩) hentry).2
    exact ⟨b.files, by rw [hbd]; rfl, hsnap bd hbd⟩

end BareServer
