/-
Whether a build in memory mode loses a file. Every file is charged for what it retains, but a file
whose key is that of another replaces it: what is added to the total is what the cache retains, and
the order of the directories does not matter, exactly when no two files have one key.
-/
import BareServer.Cache.Charges
import BareServer.Cache.Located

namespace BareServer

open BareServer.Lib

/-! ## Files and entries -/

section

variable (env : BuildEnv) (p : Policy)

def Located.eligible (l : Located) : Bool := decide (l.info.size ≤ p.t.maxFileSize) && l.data.isSome

def Located.entered (l : Located) : Option (Str × Cached) :=
  ((l.found []).entry env p none).map fun e => (keyOf l.names, e)

def chargesOf (ls : List Located) : List Charge := fileCharges env p none (ls.map (·.found []))

end

section

variable {env : BuildEnv} {p : Policy}

theorem Located.entry_eq (l : Located) : (l.found []).entry env p none =
    if l.info.size ≤ p.t.maxFileSize then
      l.data.map fun d => .mem (makeCached env.compressors (keyOf l.names) (mimeFor (keyOf l.names)) d p)
    else none := by
  have hfound : l.found [] = ⟨keyOf l.names, l.info, l.data⟩ := rfl
  rw [hfound, Found.entry, Found.usable]
  by_cases hsize : l.info.size ≤ p.t.maxFileSize
  · rw [if_pos hsize, if_pos hsize]
    cases l.data <;> rfl
  · rw [if_neg hsize, if_neg hsize]
    rfl

theorem Located.entered_isSome (l : Located) : (l.entered env p).isSome = l.eligible p := by
  rw [Located.entered, Option.isSome_map, Located.entry_eq, Located.eligible]
  split <;> simp_all

theorem keys_entered (ls : List Located) : (ls.filterMap (·.entered env p)).map Prod.fst =
    ((ls.filter (·.eligible p)).map Located.names).map keyOf := by
  induction ls with
  | nil => rfl
  | cons l ls ih =>
    have hsome := @Located.entered_isSome env p l
    cases he : l.entered env p with
    | none =>
      rw [he] at hsome
      rw [List.filterMap_cons_none he, List.filter_cons_of_neg (by simp [← hsome]), ih]
    | some e =>
      rw [he] at hsome
      have hkey : e.1 = keyOf l.names := by
        obtain ⟨-, -, rfl⟩ := Option.map_eq_some_iff.1 he
        rfl
      rw [List.filterMap_cons_some he, List.filter_cons_of_pos (by simp [← hsome]), List.map_cons, List.map_cons, List.map_cons,
        ih, hkey]

theorem contentOf_located (ls : List Located) :
    contentOf env p none (ls.map (·.found [])) = Map.insertAll ∅ (ls.filterMap (·.entered env p)) := by
  rw [contentOf, Map.insertAll, List.foldl_map, List.foldl_filterMap]
  congr
  funext m l
  rw [enter, Located.entered]
  cases (l.found []).entry env p none <;> rfl

theorem kept_chargesOf (ls : List Located) : Charge.kept (chargesOf env p ls) =
    ((ls.filterMap (·.entered env p)).map fun e => e.2.retainedBytes).sum := by
  induction ls with
  | nil => rfl
  | cons l ls ih =>
    rw [chargesOf, List.map_cons, fileCharges_cons, Charge.kept_cons]
    rw [chargesOf] at ih
    rw [ih]
    have hkeeps : ((l.found []).charge env p none).keeps =
        ((l.entered env p).map fun e => e.2.retainedBytes).getD 0 := by
      rw [Located.entered, Option.map_map]
      rfl
    rw [hkeeps]
    cases he : l.entered env p with
    | none => rw [List.filterMap_cons_none he, Option.map_none, Option.getD_none, Nat.zero_add]
    | some e => rw [List.filterMap_cons_some he, List.map_cons, List.sum_cons, Option.map_some, Option.getD_some]

theorem chargesOf_perm {ls ls' : List Located} (h : ls.Perm ls') : (chargesOf env p ls).Perm (chargesOf env p ls') :=
  (h.map _).map _

/-- An entry retains its header and its body. -/
theorem length_lt_retained (c : Compressors) (url mime : Str) (data : Bytes) :
    data.length < (Cached.mem (makeCached c url mime data p)).retainedBytes := by
  have hheader : ∀ n etag vary cc sh, 0 < (buildHeader mime n etag none vary cc sh).length := by
    intro n etag vary cc sh
    simp only [buildHeader, List.length_append]
    have : (str "Connection: keep-alive").length = 22 := by decide
    omega
  have hfull : data.length < (makeCached c url mime data p).identity.fullKa.length := by
    simp only [makeCached, buildVariant, List.length_append]
    exact Nat.lt_add_of_pos_left (hheader _ _ _ _ _)
  unfold Cached.retainedBytes
  simp only
  omega

/-! ## A build by located files -/

/-- A build in memory mode is accepted when every visible directory can be read and the charges of its files are
admitted. -/
theorem buildCache_located (hmem : p.storage = .memory) (seq total : Nat) (entries : List (Bytes × Node)) :
    buildCache env p seq (.dir (some entries)) total =
      (((located.go entries).filter fun ls => decide (Charge.Admits p.t.maxTotalBytes total (chargesOf env p ls))).map
        fun ls => (⟨Map.insertAll ∅ (ls.filterMap (·.entered env p)), none⟩, total + Charge.kept (chargesOf env p ls)), seq) := by
  have hfiles : found [] (.dir (some entries)) = (located.go entries).map (·.map (·.found [])) := by
    rw [found_located, located]
  unfold buildCache
  rw [hmem]
  simp only
  rw [walk_eq, hfiles]
  cases hl : located.go entries with
  | none => rfl
  | some ls =>
    rw [Option.map_some, Option.bind_some]
    by_cases hfit : Charge.Admits p.t.maxTotalBytes total (chargesOf env p ls)
    · obtain ⟨files, hfold⟩ := @foldlM_admits env p none _ ⟨∅, total, ∅⟩ hfit
      rw [hfold, Option.filter_some_pos (by simpa using hfit)]
      simp only [Option.map_some, ← contentOf_located]
      rfl
    · rw [@foldlM_refused env p none _ ⟨∅, total, ∅⟩ hfit, Option.filter_some_neg (by simpa using hfit)]
      rfl

theorem buildCache_located_some (hmem : p.storage = .memory) {seq total total' seq' : Nat} {entries : List (Bytes × Node)}
    {cache : SiteCache} (h : buildCache env p seq (.dir (some entries)) total = (some (cache, total'), seq')) :
    ∃ ls, located.go entries = some ls ∧ Charge.Admits p.t.maxTotalBytes total (chargesOf env p ls) ∧
      cache.map = Map.insertAll ∅ (ls.filterMap (·.entered env p)) ∧ total' = total + Charge.kept (chargesOf env p ls) := by
  rw [buildCache_located hmem, Prod.mk.injEq, Option.map_eq_some_iff] at h
  obtain ⟨⟨ls, hls, heq⟩, -⟩ := h
  obtain ⟨hl, hfit⟩ := Option.filter_eq_some_iff.1 hls
  cases heq
  exact ⟨ls, hl, of_decide_eq_true hfit, rfl, rfl⟩

theorem buildCache_isSome_iff (hmem : p.storage = .memory) (seq total : Nat) {entries : List (Bytes × Node)}
    {ls : List Located} (hl : located.go entries = some ls) :
    (buildCache env p seq (.dir (some entries)) total).1.isSome ↔
      Charge.Admits p.t.maxTotalBytes total (chargesOf env p ls) := by
  rw [buildCache_located hmem, hl]
  by_cases hfit : Charge.Admits p.t.maxTotalBytes total (chargesOf env p ls)
  · simp [Option.filter, hfit]
  · simp [Option.filter, hfit]

end

/-! ## Lossless builds -/

section

variable (env : BuildEnv) (p : Policy)

/-- Visible names lead to a readable regular file within the size limit. -/
def Eligible (entries : List (Bytes × Node)) (names : List Bytes) : Prop :=
  ∃ info data, FileAt entries names info (some data) ∧ info.size ≤ p.t.maxFileSize

/-- No two eligible files have names of the same texts. -/
def NamesApart (entries : List (Bytes × Node)) : Prop :=
  ∀ a b, Eligible p entries a → Eligible p entries b → a.map fromUtf8Lossy = b.map fromUtf8Lossy → a = b

/-- What a build keeps of a tree: it charges for exactly what the cache retains, every eligible file has a key of its own
and is found under it, and no order of the directories that is accepted gives another cache or charges otherwise. -/
structure Lossless (seq total : Nat) (entries : List (Bytes × Node)) (cache : SiteCache) (total' : Nat) : Prop where
  exact : total' = total + cacheBytes cache.map
  keys : ∀ a b, Eligible p entries a → Eligible p entries b → a ≠ b → keyOf a ≠ keyOf b
  stored : ∀ names info data, FileAt entries names info (some data) → info.size ≤ p.t.maxFileSize →
    cache.map.lookup (keyOf names) = some (.mem (makeCached env.compressors (keyOf names) (mimeFor (keyOf names)) data p))
  ordered : ∀ entries' cache' total'' seq', Reordered entries entries' →
    buildCache env p seq (.dir (some entries')) total = (some (cache', total''), seq') →
    total'' = total' ∧ ∀ url, cache'.map.lookup url = cache.map.lookup url

def retainedOf (entries : List (Bytes × Node)) : Nat := Charge.kept (chargesOf env p ((located.go entries).getD []))

/-- Every file within the size limit has room for its source on top of what all others retain. -/
def RoomForAll (total : Nat) (entries : List (Bytes × Node)) : Prop :=
  ∀ names info data, FileAt entries names info data → info.size ≤ p.t.maxFileSize →
    let own := (⟨keyOf names, info, data⟩ : Found).kept env p none
    total + retainedOf env p entries + max info.size own ≤ p.t.maxTotalBytes + own

end

section

variable {env : BuildEnv} {p : Policy} {entries : List (Bytes × Node)} {ls : List Located}

theorem noSlash_lossy {n : Bytes} (h : 47 ∉ n) : 47 ∉ fromUtf8Lossy n := by
  intro hmem
  rcases mem_lossyFrom n .start [] 47 hmem with hmem | hmem | hmem
  · cases hmem
  · exact h hmem
  · exact absurd hmem (by decide)

/-- A key says what the texts of the names are. -/
theorem keyOf_eq_iff {a b : List Bytes} (ha : ∀ n ∈ a, IsOsName n) (hb : ∀ n ∈ b, IsOsName n) :
    keyOf a = keyOf b ↔ a.map fromUtf8Lossy = b.map fromUtf8Lossy := by
  have htexts : ∀ {names : List Bytes}, (∀ n ∈ names, IsOsName n) → ∀ x ∈ names.map fromUtf8Lossy, 47 ∉ x := by
    intro names hnames x hx
    obtain ⟨n, hn, rfl⟩ := List.mem_map.1 hx
    exact noSlash_lossy (hnames n hn).noSlash
  exact ⟨urlOf_inj (htexts ha) (htexts hb), congrArg urlOf⟩

theorem Eligible.osNames {names : List Bytes} (h : Eligible p entries names) (hn : OsNamed entries) :
    ∀ n ∈ names, IsOsName n := by
  obtain ⟨info, data, hat, -⟩ := h
  exact hat.osNames hn

theorem mem_eligible (hl : located.go entries = some ls) {names : List Bytes} :
    names ∈ (ls.filter (·.eligible p)).map Located.names ↔ Eligible p entries names := by
  rw [List.mem_map]
  constructor
  · rintro ⟨l, hmem, rfl⟩
    obtain ⟨hmem, helig⟩ := List.mem_filter.1 hmem
    rw [Located.eligible, Bool.and_eq_true, decide_eq_true_eq, Option.isSome_iff_exists] at helig
    obtain ⟨hsize, data, hdata⟩ := helig
    exact ⟨l.info, data, hdata ▸ (mem_located entries ls hl l).1 hmem, hsize⟩
  · rintro ⟨info, data, hat, hsize⟩
    have hmem := (mem_located entries ls hl ⟨names, info, some data⟩).2 hat
    exact ⟨_, List.mem_filter.2 ⟨hmem, by simpa [Located.eligible] using hsize⟩, rfl⟩

/-- The keys of a cache's entries are distinct exactly when the texts of the names are. -/
theorem nodup_keys_iff (hn : OsNamed entries) (hl : located.go entries = some ls) :
    ((ls.filterMap (·.entered env p)).map Prod.fst).Nodup ↔ NamesApart p entries := by
  have hnames : ((ls.filter (·.eligible p)).map Located.names).Nodup :=
    (nodup_located entries hn ls hl).sublist ((List.filter_sublist).map _)
  rw [keys_entered, List.nodup_map_iff_inj_on hnames]
  constructor
  · intro hinj a b ha hb htexts
    exact hinj a ((mem_eligible hl).2 ha) b ((mem_eligible hl).2 hb) ((keyOf_eq_iff (ha.osNames hn) (hb.osNames hn)).2 htexts)
  · intro hapart a ha b hb hkey
    have ha' := (mem_eligible hl).1 ha
    have hb' := (mem_eligible hl).1 hb
    exact hapart a b ha' hb' ((keyOf_eq_iff (ha'.osNames hn) (hb'.osNames hn)).1 hkey)

theorem mem_entered (hl : located.go entries = some ls) {names : List Bytes} {info : FileMeta} {data : Bytes}
    (hat : FileAt entries names info (some data)) (hsize : info.size ≤ p.t.maxFileSize) :
    (keyOf names, .mem (makeCached env.compressors (keyOf names) (mimeFor (keyOf names)) data p)) ∈
      ls.filterMap (·.entered env p) := by
  refine List.mem_filterMap.2 ⟨⟨names, info, some data⟩, (mem_located entries ls hl _).2 hat, ?_⟩
  rw [Located.entered, Located.entry_eq, if_pos hsize]
  rfl

theorem entered_pos : ∀ e ∈ ls.filterMap (·.entered env p), 0 < e.2.retainedBytes := by
  intro e he
  obtain ⟨l, -, hl⟩ := List.mem_filterMap.1 he
  obtain ⟨c, hc, rfl⟩ := Option.map_eq_some_iff.1 hl
  rw [Located.entry_eq] at hc
  split at hc
  · obtain ⟨data, -, rfl⟩ := Option.map_eq_some_iff.1 hc
    exact Nat.zero_lt_of_lt (length_lt_retained _ _ _ data)
  · cases hc

/-- What is charged is what is retained exactly when no entry replaces another. -/
theorem charged_eq_iff : Charge.kept (chargesOf env p ls) = cacheBytes (Map.insertAll ∅ (ls.filterMap (·.entered env p))) ↔
    ((ls.filterMap (·.entered env p)).map Prod.fst).Nodup := by
  have hiff := Map.weigh_insertAll_eq_iff (w := Cached.retainedBytes) (m := (∅ : Cache)) (by simp)
    (@entered_pos env p ls)
  have hempty : Map.weigh Cached.retainedBytes (∅ : Cache) = 0 := rfl
  rw [hempty, Nat.zero_add] at hiff
  rw [kept_chargesOf, eq_comm]
  exact hiff.trans (and_iff_left fun _ _ => rfl)

theorem retainedOf_eq (hl : located.go entries = some ls) : retainedOf env p entries = Charge.kept (chargesOf env p ls) := by
  rw [retainedOf, hl, Option.getD_some]

/-- A file within the size limit asks for its source or for what it retains, whichever is more. -/
theorem fits_located {f : Found} (hsize : f.info.size ≤ p.t.maxFileSize) {ceiling total : Nat} :
    (f.charge env p none).Fits ceiling total ↔ total + max f.info.size (f.kept env p none) ≤ ceiling := by
  rw [Charge.Fits, Found.charge_memory hsize]
  exact ⟨fun h => h _ rfl, fun h a ha => Option.some.inj ha ▸ h⟩

/-- Every order is accepted exactly when the last file of each has its room. -/
theorem roomForAll_iff (hmem : p.storage = .memory) {seq total : Nat} (hl : located.go entries = some ls) :
    (∀ entries', Reordered entries entries' → (buildCache env p seq (.dir (some entries')) total).1.isSome) ↔
      RoomForAll env p total entries := by
  rw [RoomForAll, retainedOf_eq hl]
  constructor
  · intro hall names info data hat hsize
    obtain ⟨entries', ls', hre, hlast⟩ := located_last entries ls hl ⟨names, info, data⟩ ((mem_located entries ls hl _).2 hat)
    have hfit := (buildCache_isSome_iff hmem seq total hlast).1 (hall entries' hre)
    obtain ⟨ls'', hl'', hp⟩ := hre.located ls hl
    cases hlast.symm.trans hl''
    have hcharges : chargesOf env p (ls' ++ [⟨names, info, data⟩]) =
        chargesOf env p ls' ++ [(⟨keyOf names, info, data⟩ : Found).charge env p none] := by
      rw [chargesOf, List.map_append, fileCharges, List.map_append]
      rfl
    have hkept := Charge.kept_perm (@chargesOf_perm env p _ _ hp)
    rw [hcharges] at hfit hkept
    rw [Charge.kept_append, Charge.kept_cons, Charge.kept_nil] at hkept
    have hroom : total + Charge.kept (chargesOf env p ls') +
        max info.size ((⟨keyOf names, info, data⟩ : Found).kept env p none) ≤ p.t.maxTotalBytes :=
      (fits_located hsize).1 hfit.last
    simp only [Found.charge] at hkept
    dsimp only
    omega
  · intro hroom entries' hre
    obtain ⟨ls', hl', hp⟩ := hre.located ls hl
    refine (buildCache_isSome_iff hmem seq total hl').2 (Charge.Ample.admits (fun c rest hc => ?_) (chargesOf_perm hp))
    have hmemc : c ∈ chargesOf env p ls := hc.mem_iff.2 List.mem_cons_self
    obtain ⟨f, hf, rfl⟩ := List.mem_map.1 hmemc
    obtain ⟨l, hlmem, rfl⟩ := List.mem_map.1 hf
    by_cases hsize : l.info.size ≤ p.t.maxFileSize
    · have hone := hroom l.names l.info l.data ((mem_located entries ls hl l).1 hlmem) hsize
      have hkept := Charge.kept_perm hc
      rw [Charge.kept_cons] at hkept
      refine (fits_located hsize).2 ?_
      have hfound : l.found [] = ⟨keyOf l.names, l.info, l.data⟩ := rfl
      rw [hfound] at hkept ⊢
      simp only [Found.charge] at hkept
      dsimp only at hone ⊢
      omega
    · exact (Found.charge_untested fun h => hsize h.2).fits _ _

/-- Where every file within the size limit is read whole, no order is refused that another is not. -/
theorem roomForAll_of_whole (hl : located.go entries = some ls) {total : Nat}
    (hfit : Charge.Admits p.t.maxTotalBytes total (chargesOf env p ls))
    (hwhole : ∀ names info data, FileAt entries names info data → info.size ≤ p.t.maxFileSize →
      ∃ d, data = some d ∧ info.size ≤ d.length) : RoomForAll env p total entries := by
  intro names info data hat hsize
  obtain ⟨d, rfl, hlen⟩ := hwhole names info data hat hsize
  have hmem := (mem_located entries ls hl ⟨names, info, some d⟩).2 hat
  have htotal : total ≤ p.t.maxTotalBytes := by
    obtain ⟨pre, post, hsplit⟩ := List.append_of_mem (List.mem_map_of_mem (List.mem_map_of_mem hmem) :
      (⟨keyOf names, info, some d⟩ : Found).charge env p none ∈ chargesOf env p ls)
    have hone := (fits_located hsize).1 ((Charge.admits_iff _).1 hfit pre _ post hsplit)
    omega
  have hkept : total + Charge.kept (chargesOf env p ls) ≤ p.t.maxTotalBytes :=
    hfit.bounded htotal (fileCharges_covered _)
  have hown : info.size ≤ (⟨keyOf names, info, some d⟩ : Found).kept env p none := by
    have hentry := @Located.entry_eq env p ⟨names, info, some d⟩
    rw [if_pos hsize] at hentry
    have hkept : (⟨keyOf names, info, some d⟩ : Found).kept env p none = _ :=
      congrArg (fun e => (e.map Cached.retainedBytes).getD 0) hentry
    rw [hkept]
    exact hlen.trans (length_lt_retained _ _ _ d).le
  rw [retainedOf_eq hl]
  dsimp only
  omega

/-- In memory mode, of every tree of names that the system allows which is accepted: the build is lossless, and already its
charge is exact, just when no two eligible files have names of the same texts; and every other order is accepted too just
when each file within the size limit has room for its source on top of what all others retain. -/
theorem buildCache_lossless_iff (env : BuildEnv) (p : Policy) (hmem : p.storage = .memory) (seq total total' seq' : Nat)
    (entries : List (Bytes × Node)) (hn : OsNamed entries) (cache : SiteCache)
    (hb : buildCache env p seq (.dir (some entries)) total = (some (cache, total'), seq')) :
    (Lossless env p seq total entries cache total' ↔ NamesApart p entries) ∧
    (total' = total + cacheBytes cache.map ↔ NamesApart p entries) ∧
    ((∀ entries', Reordered entries entries' → (buildCache env p seq (.dir (some entries')) total).1.isSome) ↔
      RoomForAll env p total entries) := by
  obtain ⟨ls, hl, -, hmap, htotal⟩ := buildCache_located_some hmem hb
  have hexact : total' = total + cacheBytes cache.map ↔ NamesApart p entries := by
    rw [htotal, hmap, Nat.add_left_cancel_iff, charged_eq_iff, nodup_keys_iff hn hl]
  refine ⟨⟨fun h => hexact.1 h.exact, fun hapart => ?_⟩, hexact, roomForAll_iff hmem hl⟩
  have hnodup := (@nodup_keys_iff env p _ _ hn hl).2 hapart
  constructor
  · exact hexact.2 hapart
  · intro a b ha hb hne hkey
    exact hne (hapart a b ha hb ((keyOf_eq_iff (ha.osNames hn) (hb.osNames hn)).1 hkey))
  · intro names info data hat hsize
    rw [hmap]
    exact Map.lookup_insertAll_of_mem hnodup (mem_entered hl hat hsize)
  · intro entries' cache' total'' seq'' hre hb'
    obtain ⟨ls', hl', -, hmap', htotal'⟩ := buildCache_located_some hmem hb'
    obtain ⟨ls'', hl'', hp⟩ := hre.located ls hl
    cases hl'.symm.trans hl''
    rw [htotal', htotal, hmap', hmap]
    exact ⟨congrArg (total + ·) (Charge.kept_perm (chargesOf_perm hp)).symm,
      Map.lookup_insertAll_perm hnodup (hp.filterMap _)⟩

/-- A compression that gains nothing. -/
def noGain : BuildEnv := ⟨⟨fun data _ => data, fun data _ => data⟩, fun _ => true, fun _ => true⟩

def keptPolicy : Policy := .withHeaders .default .default .memory []

/-- A directory of two pages, the first under a name that is not UTF-8. -/
def twoPages (name : Bytes) : List (Bytes × Node) :=
  [([255], .file ⟨1, none⟩ (some (str "a"))), (name, .file ⟨1, none⟩ (some (str "b")))]

theorem osNamed_twoPages {name : Bytes} (hos : IsOsName name) (hne : name ≠ [255]) : OsNamed (twoPages name) := by
  refine .dir ?_ ?_ ?_
  · simpa [twoPages] using hne.symm
  · intro e he
    simp only [twoPages, List.mem_cons, List.not_mem_nil, or_false] at he
    rcases he with rfl | rfl
    · exact ⟨by decide, by decide, by decide⟩
    · exact hos
  · intro raw sub hmem
    simp [twoPages] at hmem

/-- One ill-formed name alone is no danger; and where both files are read whole, either order is accepted. -/
theorem buildCache_lossless_one : ∃ cache total',
    (buildCache noGain keptPolicy 0 (.dir (some (twoPages (str "b")))) 0).1 = some (cache, total') ∧
    Lossless noGain keptPolicy 0 0 (twoPages (str "b")) cache total' ∧
    ∀ entries', Reordered (twoPages (str "b")) entries' →
      (buildCache noGain keptPolicy 0 (.dir (some entries')) 0).1.isSome := by
  obtain ⟨⟨cache, total'⟩, hbuilt⟩ := Option.isSome_iff_exists.1
    (show (buildCache noGain keptPolicy 0 (.dir (some (twoPages (str "b")))) 0).1.isSome from by decide +kernel)
  have hnamed : OsNamed (twoPages (str "b")) :=
    osNamed_twoPages ⟨by decide, by decide, by decide⟩ (by decide)
  have helig : ∀ {names}, Eligible keptPolicy (twoPages (str "b")) names → names = [[255]] ∨ names = [str "b"] := by
    rintro names ⟨info, data, hat, -⟩
    cases hat with
    | file hmem _ =>
      simp only [twoPages, List.mem_cons, Prod.mk.injEq, List.not_mem_nil, or_false] at hmem
      rcases hmem with ⟨rfl, -⟩ | ⟨rfl, -⟩
      · exact .inl rfl
      · exact .inr rfl
    | dir hmem _ _ => simp [twoPages] at hmem
  have hapart : NamesApart keptPolicy (twoPages (str "b")) := by
    intro a b ha hb htexts
    rcases helig ha with rfl | rfl <;> rcases helig hb with rfl | rfl
    · rfl
    · exact absurd htexts (by decide)
    · exact absurd htexts (by decide)
    · rfl
  have hwhole : ∀ names info data, FileAt (twoPages (str "b")) names info data → info.size ≤ keptPolicy.t.maxFileSize →
      ∃ d, data = some d ∧ info.size ≤ d.length := by
    intro names info data hat _
    cases hat with
    | file hmem _ =>
      simp only [twoPages, List.mem_cons, Prod.mk.injEq, List.not_mem_nil, or_false, Node.file.injEq] at hmem
      rcases hmem with ⟨-, rfl, rfl⟩ | ⟨-, rfl, rfl⟩ <;> exact ⟨_, rfl, by decide⟩
    | dir hmem _ _ => simp [twoPages] at hmem
  obtain ⟨ls, hl, hfit, -⟩ := buildCache_located_some rfl (pair_of_fst hbuilt)
  obtain ⟨hlossless, -, horders⟩ :=
    buildCache_lossless_iff noGain keptPolicy rfl 0 0 total' _ _ hnamed cache (pair_of_fst hbuilt)
  exact ⟨cache, total', hbuilt, hlossless.2 hapart, horders.2 (roomForAll_of_whole hl hfit hwhole)⟩

/-- Two ill-formed names of one text have one key. -/
theorem lossless_two_illFormed : ¬ ∀ (env : BuildEnv) (p : Policy) (seq total total' seq' : Nat)
    (entries : List (Bytes × Node)) (cache : SiteCache), p.storage = .memory → OsNamed entries →
    buildCache env p seq (.dir (some entries)) total = (some (cache, total'), seq') →
    Lossless env p seq total entries cache total' := by
  intro h
  obtain ⟨⟨cache, total'⟩, hbuilt⟩ := Option.isSome_iff_exists.1
    (show (buildCache noGain keptPolicy 0 (.dir (some (twoPages [254]))) 0).1.isSome from by decide +kernel)
  have hnamed : OsNamed (twoPages [254]) := osNamed_twoPages ⟨by decide, by decide, by decide⟩ (by decide)
  have hlossless := h noGain keptPolicy 0 0 total' _ _ cache rfl hnamed (pair_of_fst hbuilt)
  have hfirst : Eligible keptPolicy (twoPages [254]) [[255]] :=
    ⟨⟨1, none⟩, str "a", .file List.mem_cons_self (by decide), by decide⟩
  have hsecond : Eligible keptPolicy (twoPages [254]) [[254]] :=
    ⟨⟨1, none⟩, str "b", .file (List.mem_cons_of_mem _ List.mem_cons_self) (by decide), by decide⟩
  exact hlossless.keys _ _ hfirst hsecond (by decide) (by decide)

end

end BareServer
