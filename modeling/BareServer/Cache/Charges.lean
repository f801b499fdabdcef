/-
What a build charges to the memory budget: each file a walk meets is one charge, and the walk fails at
the first that does not fit. In memory mode a file is charged for what it retains and tested for the
larger of that and its source; in disk mode it is charged for its headers and never tested.
-/
import BareServer.Lib.Charge
import BareServer.Cache.BuildSpec

namespace BareServer

open BareServer.Lib

/-! ## One file -/

section

variable (env : BuildEnv) (p : Policy) (buildDir : Option Path)

namespace Found

/-- A file as a charge. A file beyond the size limit is skipped before any test. -/
def charge (f : Found) : Charge where
  asks := if buildDir = none ∧ f.info.size ≤ p.t.maxFileSize then some (max f.info.size (f.kept env p buildDir)) else none
  keeps := f.kept env p buildDir

end Found

def contentOf (fs : List Found) : Cache := fs.foldl (enter env p buildDir) ∅

def fileCharges (fs : List Found) : List Charge := fs.map (·.charge env p buildDir)

end

section

variable {env : BuildEnv} {p : Policy} {buildDir : Option Path} {f : Found} {b : Building}

/-- In memory mode a file within the limit is tested for its source and for what it retains. -/
theorem Found.charge_memory (h : f.info.size ≤ p.t.maxFileSize) :
    (f.charge env p none).asks = some (max f.info.size (f.kept env p none)) := if_pos ⟨rfl, h⟩

theorem Found.charge_untested (h : ¬ (buildDir = none ∧ f.info.size ≤ p.t.maxFileSize)) :
    (f.charge env p buildDir).Untested := if_neg h

/-- A charge that does not fit is that of a file in memory. -/
theorem Found.fits_iff {total : Nat} : (f.charge env p buildDir).Fits p.t.maxTotalBytes total ↔
    ¬ (buildDir = none ∧ f.info.size ≤ p.t.maxFileSize ∧
      p.t.maxTotalBytes < total + max f.info.size (f.kept env p buildDir)) := by
  by_cases hasks : buildDir = none ∧ f.info.size ≤ p.t.maxFileSize
  · obtain ⟨rfl, hsize⟩ := hasks
    constructor
    · rintro hfit ⟨-, -, hover⟩
      have := hfit _ (Found.charge_memory hsize)
      omega
    · intro hno a ha
      rw [Found.charge_memory hsize, Option.some.injEq] at ha
      by_contra hover
      exact hno ⟨rfl, hsize, by omega⟩
  · exact iff_of_true ((Found.charge_untested hasks).fits _ _) fun h => hasks ⟨h.1, h.2.1⟩

theorem walkFound_fits (hf : (f.charge env p buildDir).Fits p.t.maxTotalBytes b.total) :
    walkFound env p buildDir b f =
      some ⟨enter env p buildDir b.map f, b.total + f.kept env p buildDir, f.files env p buildDir b.files⟩ := by
  rw [walkFound_eq, if_neg (Found.fits_iff.1 hf)]

theorem walkFound_refused (hf : ¬ (f.charge env p buildDir).Fits p.t.maxTotalBytes b.total) :
    walkFound env p buildDir b f = none := by
  rw [walkFound_eq, if_pos (not_not.1 (mt Found.fits_iff.2 hf))]

end

/-! ## A walk -/

section

variable {env : BuildEnv} {p : Policy} {buildDir : Option Path}

theorem fileCharges_cons (f : Found) (fs : List Found) :
    fileCharges env p buildDir (f :: fs) = f.charge env p buildDir :: fileCharges env p buildDir fs := rfl

theorem foldlM_admits : ∀ {fs : List Found} {b : Building},
    Charge.Admits p.t.maxTotalBytes b.total (fileCharges env p buildDir fs) →
    ∃ files, fs.foldlM (walkFound env p buildDir) b = some ⟨fs.foldl (enter env p buildDir) b.map,
      b.total + Charge.kept (fileCharges env p buildDir fs), files⟩
  | [], b, _ => ⟨b.files, rfl⟩
  | f :: fs, b, h => by
    obtain ⟨files, hrest⟩ := @foldlM_admits fs
      ⟨enter env p buildDir b.map f, b.total + f.kept env p buildDir, f.files env p buildDir b.files⟩ h.2
    refine ⟨files, ?_⟩
    rw [List.foldlM_cons, walkFound_fits h.1, Option.bind_eq_bind, Option.bind_some, hrest, fileCharges_cons, Charge.kept_cons,
      ← Nat.add_assoc]
    rfl

theorem foldlM_refused : ∀ {fs : List Found} {b : Building},
    ¬ Charge.Admits p.t.maxTotalBytes b.total (fileCharges env p buildDir fs) →
    fs.foldlM (walkFound env p buildDir) b = none
  | [], _, h => absurd trivial h
  | f :: fs, b, h => by
    rw [List.foldlM_cons]
    by_cases hone : (f.charge env p buildDir).Fits p.t.maxTotalBytes b.total
    · rw [walkFound_fits hone]
      exact foldlM_refused fun hrest => h ⟨hone, hrest⟩
    · rw [walkFound_refused hone]
      rfl

theorem fileCharges_covered (fs : List Found) : ∀ ch ∈ fileCharges env p none fs, ch.Covered := by
  intro ch hch
  obtain ⟨f, -, rfl⟩ := List.mem_map.1 hch
  by_cases hsize : f.info.size ≤ p.t.maxFileSize
  · rw [Charge.Covered, Found.charge_memory hsize]
    exact le_max_right _ _
  · have hkept : (f.charge env p none).keeps = 0 := Found.kept_of_unusable (by rw [Found.usable, if_neg hsize])
    rw [Charge.Covered, hkept]
    exact Nat.zero_le _

theorem fileCharges_untested (bd : Path) (fs : List Found) : ∀ ch ∈ fileCharges env p (some bd) fs, ch.Untested := by
  intro ch hch
  obtain ⟨f, -, rfl⟩ := List.mem_map.1 hch
  exact Found.charge_untested fun h => by cases h.1

/-- Entering an entry adds no more than it retains: it may replace another. -/
theorem cacheBytes_insert (m : Cache) (url : Str) (e : Cached) :
    cacheBytes (m.insert url e) ≤ cacheBytes m + e.retainedBytes := by
  have hone := Map.weigh_insert Cached.retainedBytes m url e
  have hbytes : ∀ m : Cache, cacheBytes m = m.weigh Cached.retainedBytes := fun _ => rfl
  rw [hbytes, hbytes]
  omega

/-- What is cached of some files is at most what they are charged for. -/
theorem cacheBytes_foldl_enter : ∀ (fs : List Found) (m : Cache),
    cacheBytes (fs.foldl (enter env p buildDir) m) ≤ cacheBytes m + Charge.kept (fileCharges env p buildDir fs)
  | [], m => le_rfl
  | f :: fs, m => by
    have hrest := cacheBytes_foldl_enter fs (enter env p buildDir m f)
    have hone : cacheBytes (enter env p buildDir m f) ≤ cacheBytes m + f.kept env p buildDir := by
      unfold enter Found.kept
      cases f.entry env p buildDir with
      | none => simp
      | some e => exact cacheBytes_insert m f.url e
    rw [List.foldl_cons, fileCharges_cons, Charge.kept_cons]
    simp only [Found.charge] at *
    omega

theorem cacheBytes_contentOf (fs : List Found) :
    cacheBytes (contentOf env p buildDir fs) ≤ Charge.kept (fileCharges env p buildDir fs) := by
  have hle := @cacheBytes_foldl_enter env p buildDir fs ∅
  rwa [show cacheBytes ∅ = 0 from rfl, Nat.zero_add] at hle

/-! ## A build -/

/-- The files a build meets: none where it cannot start. -/
def buildVisit (env : BuildEnv) (p : Policy) (seq : Nat) (root : Node) : Visit :=
  if p.storage = .disk ∧ env.mkdir (buildDirPath p seq) = false then ⟨[], false⟩ else visited [] root

def nextSeq (p : Policy) (seq : Nat) : Nat :=
  match p.storage with
  | .memory => seq
  | .disk => seq + 1

def buildCharges (env : BuildEnv) (p : Policy) (seq : Nat) (root : Node) : List Charge :=
  fileCharges env p (snapshotDir p seq) (buildVisit env p seq root).files

theorem buildCache_pass (env : BuildEnv) (p : Policy) (seq : Nat) (root : Node) (total : Nat) :
    (buildCache env p seq root total).1 =
      ((buildVisit env p seq root).pass (walkFound env p (snapshotDir p seq)) ⟨∅, total, ∅⟩).map fun b =>
        (⟨b.map, (snapshotDir p seq).map fun dir => ⟨dir, b.files⟩⟩, b.total) := by
  by_cases hroot : ∃ entries, root = .dir (some entries)
  · obtain ⟨entries, rfl⟩ := hroot
    unfold buildCache buildVisit snapshotDir
    cases hs : p.storage with
    | memory =>
      simp only [reduceCtorEq, false_and, if_false, ← walk_visited]
      cases walk env p none [] (.dir (some entries)) ⟨∅, total, ∅⟩ <;> rfl
    | disk =>
      simp only [true_and]
      by_cases hmk : env.mkdir (buildDirPath p seq) = true
      · rw [if_pos hmk, if_neg (by simp [hmk]), ← walk_visited]
        cases walk env p (some (buildDirPath p seq)) [] (.dir (some entries)) ⟨∅, total, ∅⟩ <;> rfl
      · rw [if_neg hmk, if_pos (by simpa using hmk)]
        rfl
  · have hcache : (buildCache env p seq root total).1 = none := by
      unfold buildCache
      split
      · exact absurd ⟨_, rfl⟩ hroot
      · rfl
    have hvisit : buildVisit env p seq root = ⟨[], false⟩ := by
      unfold buildVisit
      split
      · rfl
      · rw [visited]
        exact fun entries heq => hroot ⟨entries, heq⟩
    rw [hcache, hvisit]
    rfl

/-- A build whose visit is whole and whose charges are admitted gives the cache of its files, charged for what they
retain. -/
theorem buildCache_admits {seq total : Nat} {root : Node} (hwhole : (buildVisit env p seq root).whole = true)
    (hfit : Charge.Admits p.t.maxTotalBytes total (buildCharges env p seq root)) :
    ∃ cache, buildCache env p seq root total =
        (some (cache, total + Charge.kept (buildCharges env p seq root)), nextSeq p seq) ∧
      cache.map = contentOf env p (snapshotDir p seq) (buildVisit env p seq root).files := by
  obtain ⟨files, hfold⟩ := @foldlM_admits env p _ _ ⟨∅, total, ∅⟩ hfit
  have hpass := buildCache_pass env p seq root total
  rw [Visit.pass, hfold, Option.bind_some, if_pos hwhole, Option.map_some] at hpass
  refine ⟨_, Prod.ext hpass ?_, rfl⟩
  -- only a build that starts gives a cache
  unfold buildCache at hpass ⊢
  unfold nextSeq
  split
  · cases p.storage with
    | memory =>
      simp only
      split <;> rfl
    | disk =>
      simp only
      split
      · split <;> rfl
      · rfl
  · rename_i hroot
    split at hpass
    · exact absurd rfl (hroot _)
    · cases hpass

theorem buildCache_refused {seq total : Nat} {root : Node} (h : ¬ ((buildVisit env p seq root).whole = true ∧
    Charge.Admits p.t.maxTotalBytes total (buildCharges env p seq root))) :
    (buildCache env p seq root total).1 = none := by
  rw [buildCache_pass, Visit.pass]
  by_cases hfit : Charge.Admits p.t.maxTotalBytes total (buildCharges env p seq root)
  · obtain ⟨files, hfold⟩ := @foldlM_admits env p _ _ ⟨∅, total, ∅⟩ hfit
    rw [hfold, Option.bind_some, if_neg fun hw => h ⟨hw, hfit⟩]
    rfl
  · rw [@foldlM_refused env p _ _ ⟨∅, total, ∅⟩ hfit]
    rfl

/-- A build in memory mode that starts below the ceiling ends below it. -/
theorem buildCache_within (hmem : p.storage = .memory) {seq total total' seq' : Nat} {root : Node} {cache : SiteCache}
    (hb : buildCache env p seq root total = (some (cache, total'), seq')) (ht : total ≤ p.t.maxTotalBytes) :
    total + cacheBytes cache.map ≤ p.t.maxTotalBytes := by
  have hdir : snapshotDir p seq = none := by rw [snapshotDir, hmem]
  by_cases hok : (buildVisit env p seq root).whole = true ∧
      Charge.Admits p.t.maxTotalBytes total (buildCharges env p seq root)
  · obtain ⟨built, heq, hmap⟩ := buildCache_admits hok.1 hok.2
    rw [hb] at heq
    cases heq
    have hbytes := @cacheBytes_contentOf env p (snapshotDir p seq) (buildVisit env p seq root).files
    have hkept : total + Charge.kept (buildCharges env p seq root) ≤ p.t.maxTotalBytes := by
      refine hok.2.bounded ht ?_
      rw [buildCharges, hdir]
      exact fileCharges_covered _
    rw [hmap]
    rw [buildCharges] at hkept
    omega
  · have hnone := buildCache_refused hok
    rw [hb] at hnone
    cases hnone

end
end BareServer
