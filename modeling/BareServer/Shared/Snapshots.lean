/-
Snapshot directories (`cache.rs`, `BuildDir` and `clear_stale_builds`). Every build takes a number of its own, writes
below the directory of that number only, and the directory is removed when its owner goes. What is owned is intact,
and what is not owned is gone, whatever the order in which owners come and go.
-/
import BareServer.Serve.Confinement

namespace BareServer

open BareServer.Lib

/-! ## The disk -/

/-- The files of the machine, by path. -/
abbrev Disk := Path → Option Bytes

/-- Is a path below a directory? -/
def under (dir path : Path) : Bool := (dir ++ str "/").isPrefixOf path

/-- `fs::remove_dir_all`, as far as it gets: what sticks stays. -/
def removeDirAll (sticks : Path → Bool) (dir : Path) (disk : Disk) : Disk :=
  fun path => if under dir path && !sticks path then none else disk path

/-- The directory of one build. -/
def buildsIn (diskCache : Path) (n : Nat) : Path := join diskCache (str "build-" ++ dec n)

/-- Is a path below an entry of `disk_cache` whose name starts with `build-`? -/
def isStale (diskCache path : Path) : Bool :=
  (join diskCache (str "build-")).isPrefixOf path && (path.drop (join diskCache (str "build-")).length).contains 47

/-- `clear_stale_builds`. -/
def clearStaleBuilds (sticks : Path → Bool) (diskCache : Path) (disk : Disk) : Disk :=
  fun path => if isStale diskCache path && !sticks path then none else disk path

/-- `Drop` of a `BuildDir`. -/
def BuildDir.drop (sticks : Path → Bool) (bd : BuildDir) (disk : Disk) : Disk := removeDirAll sticks bd.path disk

/-- No `disk_cache` of a process lies in a snapshot directory of another. -/
def Unnested (dirs : Path → Prop) : Prop :=
  ∀ d d' n, dirs d → dirs d' → under (buildsIn d n) (withSeparator d') = false

/-! ## Names -/

theorem buildName (n : Nat) : IsNamespace (str "build-" ++ dec n) := by
  have hdash : str "build-" ≠ [] ∧ (47 : UInt8) ∉ str "build-" := by decide
  refine ⟨by simp [hdash.1], fun h => ?_⟩
  rcases List.mem_append.1 h with h | h
  · exact hdash.2 h
  · exact absurd (isAlnum_of_mem_dec h) (by decide)

theorem buildsIn_eq (d : Path) (n : Nat) : buildsIn d n = withSeparator d ++ (str "build-" ++ dec n) :=
  join_relative (buildName n).head

theorem under_iff {dir path : Path} : under dir path = true ↔ dir ++ str "/" <+: path := List.isPrefixOf_iff_prefix

/-- One `disk_cache` never lies in its own snapshot directories. -/
theorem unnested_single (d : Path) : Unnested (· = d) := by
  rintro _ _ n rfl rfl
  refine Bool.eq_false_iff.2 fun h => ?_
  have hlen := (under_iff.1 h).length_le
  have hslash : (str "/").length = 1 := rfl
  rw [buildsIn_eq, List.length_append, List.length_append, hslash] at hlen
  omega

theorem Inside.under {dir path : Path} (h : Inside dir path) : under dir path = true := by
  obtain ⟨names, hne, -, rfl⟩ := h
  cases names with
  | nil => exact absurd rfl hne
  | cons n names =>
    rw [under_iff, urlOf_cons, List.append_assoc, ← List.append_assoc dir]
    exact List.prefix_append _ _

theorem withSeparator_ends (d : Path) : withSeparator d = [] ∨ (withSeparator d).getLast? = some 47 := by
  unfold withSeparator
  split
  · rename_i h
    rcases Bool.or_eq_true_iff.1 h with h | h
    · exact .inl (List.isEmpty_iff.1 h)
    · obtain ⟨t, ht⟩ := List.isSuffixOf_iff_suffix.1 h
      rw [← ht]
      exact .inr (by simp [str_slash])
  · exact .inr (by simp [str_slash])

/-- What stands after the last separator is one name. -/
theorem name_unique {a b n m : Path} (ha : a = [] ∨ a.getLast? = some 47) (hb : b = [] ∨ b.getLast? = some 47)
    (hn : IsNamespace n) (hm : IsNamespace m) (h : a ++ n = b ++ m) : n = m := by
  -- the longer of the two fronts would end inside a name
  have key : ∀ {a b n m : Path}, (b = [] ∨ b.getLast? = some 47) → IsNamespace n → a ++ n = b ++ m → a.length ≤ b.length →
      n = m := by
    intro a b n m hb hn h hle
    obtain ⟨t, rfl⟩ : a <+: b := List.prefix_of_prefix_length_le (List.prefix_append a n) (h ▸ List.prefix_append b m) hle
    rw [List.append_assoc] at h
    have hcut : n = t ++ m := List.append_cancel_left h
    cases t with
    | nil => exact hcut
    | cons x t =>
      rcases hb with hb | hb
      · simp at hb
      · rw [List.getLast?_append_of_ne_nil _ (by simp)] at hb
        exact absurd (hcut ▸ List.mem_append_left m (List.mem_of_getLast? hb)) hn.noSlash
  rcases le_total a.length b.length with hle | hle
  · exact key hb hn h hle
  · exact (key ha hm h.symm hle).symm

theorem buildsIn_number {d d' : Path} {n m : Nat} (h : buildsIn d n = buildsIn d' m) : n = m := by
  rw [buildsIn_eq, buildsIn_eq] at h
  have hname := name_unique (withSeparator_ends d) (withSeparator_ends d') (buildName n) (buildName m) h
  exact dec_injective (List.append_cancel_left hname)

/-- Two snapshot directories of a process with different numbers have nothing below both. -/
theorem under_apart {dirs : Path → Prop} (hu : Unnested dirs) {d d' path : Path} {n m : Nat} (hd : dirs d) (hd' : dirs d')
    (h : under (buildsIn d n) path = true) (h' : under (buildsIn d' m) path = true) : n = m := by
  -- one directory with its separator is a prefix of the other with its own
  have key : ∀ {d d' : Path} {n m : Nat}, dirs d → dirs d' → buildsIn d n ++ str "/" <+: path →
      buildsIn d' m ++ str "/" <+: path → (buildsIn d n ++ str "/").length ≤ (buildsIn d' m ++ str "/").length → n = m := by
    intro d d' n m hd hd' h h' hle
    obtain ⟨t, ht⟩ := List.prefix_of_prefix_length_le h h' hle
    by_cases hshort : (buildsIn d n ++ str "/").length ≤ (withSeparator d').length
    · -- then the other `disk_cache` is below it
      have hsep : withSeparator d' <+: buildsIn d' m ++ str "/" := by
        rw [buildsIn_eq, List.append_assoc]
        exact List.prefix_append _ _
      have hin := List.prefix_of_prefix_length_le ⟨t, ht⟩ hsep hshort
      have hno := hu d d' n hd hd'
      rw [Bool.eq_false_iff] at hno
      exact absurd (under_iff.2 hin) hno
    · -- else it ends where the other's name ends, at the only separator there
      cases ht' : t with
      | nil =>
        rw [ht', List.append_nil] at ht
        exact buildsIn_number (List.append_cancel_right ht)
      | cons x t' =>
        exfalso
        have hslash := congrArg List.dropLast ht
        rw [str_slash, List.dropLast_concat, ht', List.dropLast_append_of_ne_nil (by simp), buildsIn_eq d' m] at hslash
        -- the separator after `build-n` stands within `build-m`
        have hwithin : buildsIn d n ++ [47] <+: withSeparator d' ++ (str "build-" ++ dec m) := hslash ▸ List.prefix_append _ _
        have hpre : withSeparator d' <+: buildsIn d n ++ [47] :=
          List.prefix_of_prefix_length_le (List.prefix_append _ _) hwithin (by rw [← str_slash]; omega)
        obtain ⟨u, hu'⟩ := hpre
        have hune : u ≠ [] := by
          rintro rfl
          rw [List.append_nil] at hu'
          rw [str_slash, ← hu'] at hshort
          exact hshort le_rfl
        have hlast : u.getLast? = some 47 := by
          have := congrArg List.getLast? hu'
          rwa [List.getLast?_append_of_ne_nil _ hune, List.getLast?_concat] at this
        rw [← hu', List.append_assoc] at hslash
        have hname := List.append_cancel_left hslash
        exact (buildName m).noSlash (hname ▸ List.mem_append_left _ (List.mem_of_getLast? hlast))
  rw [under_iff] at h h'
  rcases le_total (buildsIn d n ++ str "/").length (buildsIn d' m ++ str "/").length with hle | hle
  · exact key hd hd' h h' hle
  · exact (key hd' hd h' h hle).symm

/-- After clearing, nothing is left below any snapshot directory but what sticks. -/
theorem clearStaleBuilds_under {sticks : Path → Bool} {d path : Path} {n : Nat} {disk : Disk}
    (h : under (buildsIn d n) path = true) (hs : sticks path = false) : clearStaleBuilds sticks d disk path = none := by
  have hjoin : join d (str "build-") = withSeparator d ++ str "build-" := join_relative (by decide)
  obtain ⟨rest, hrest⟩ := under_iff.1 h
  have hpath : path = join d (str "build-") ++ (dec n ++ 47 :: rest) := by
    rw [← hrest, buildsIn_eq, hjoin, str_slash]
    simp only [List.append_assoc, List.singleton_append]
  have hstale : isStale d path = true := by
    unfold isStale
    rw [hpath, List.drop_left, Bool.and_eq_true]
    exact ⟨List.isPrefixOf_iff_prefix.2 (List.prefix_append _ _), by simp⟩
  rw [clearStaleBuilds, hstale, hs]
  rfl

/-! ## Owners -/

/-- Owners of snapshot directories, over a disk that was `base` before the first of them: every directory has a number
that was taken, of one owner only, its recorded files are below it and on disk, whatever else is on disk was there
before or could not be removed, and outside of snapshot directories nothing has changed. -/
structure Snapshots {O : Type} (dirs : Path → Prop) (sticks : Path → Bool) (base : Disk) (own : O → BuildDir → Prop)
    (disk : Disk) (seq : Nat) : Prop where
  numbered : ∀ o bd, own o bd → ∃ d n, dirs d ∧ n < seq ∧ bd.path = buildsIn d n
  inside : ∀ o bd, own o bd → ∀ path content, bd.files.lookup path = some content → Inside bd.path path
  apart : ∀ o o' bd bd' d d' n, own o bd → own o' bd' → bd.path = buildsIn d n → bd'.path = buildsIn d' n → o = o'
  intact : ∀ o bd, own o bd → ∀ path content, bd.files.lookup path = some content → disk path = some content
  accounted : ∀ path, disk path ≠ none → base path ≠ none ∨ sticks path = true ∨
    ∃ o bd, own o bd ∧ under bd.path path = true
  outside : ∀ path, (∀ d n, dirs d → under (buildsIn d n) path = false) → disk path = base path

namespace Snapshots

variable {O P : Type} {dirs : Path → Prop} {sticks : Path → Bool} {base disk disk' : Disk} {seq : Nat}
  {own own' : O → BuildDir → Prop} {o : O} {bd : BuildDir}

theorem empty (own : O → BuildDir → Prop) (h : ∀ o bd, ¬ own o bd) : Snapshots dirs sticks base own base seq :=
  ⟨fun o bd ho => absurd ho (h o bd), fun o bd ho => absurd ho (h o bd), fun o _ bd _ _ _ _ ho => absurd ho (h o bd),
    fun o bd ho => absurd ho (h o bd), fun _ hp => .inl hp, fun _ _ => rfl⟩

theorem congr (hs : Snapshots dirs sticks base own disk seq) (h : ∀ o bd, own o bd ↔ own' o bd) :
    Snapshots dirs sticks base own' disk seq := by
  have heq : own = own' := funext fun o => funext fun bd => propext (h o bd)
  rwa [heq] at hs

/-- Two owners' directories have nothing below both. -/
theorem disjoint (hs : Snapshots dirs sticks base own disk seq) (hu : Unnested dirs) {o' : O} {bd' : BuildDir} {path : Path}
    (ho : own o bd) (ho' : own o' bd') (h : under bd.path path = true) (h' : under bd'.path path = true) : o = o' := by
  obtain ⟨d, n, hd, -, hp⟩ := hs.numbered o bd ho
  obtain ⟨d', n', hd', -, hp'⟩ := hs.numbered o' bd' ho'
  have heq : n = n' := under_apart hu hd hd' (hp ▸ h) (hp' ▸ h')
  subst heq
  exact hs.apart o o' bd bd' d d' n ho ho' hp hp'

/-- A build takes the next number; its directory may hold what a process before left there. -/
theorem create (hs : Snapshots dirs sticks base own disk seq) {d : Path} (hd : dirs d) (hfree : ∀ bd, ¬ own o bd) :
    Snapshots dirs sticks base (fun o' bd => own o' bd ∨ o' = o ∧ bd = ⟨buildsIn d seq, ∅⟩) disk (seq + 1) := by
  refine ⟨?_, ?_, ?_, ?_, fun path hp => ?_, hs.outside⟩
  · rintro o' bd (ho | ⟨-, rfl⟩)
    · obtain ⟨d', n, hd', hn, hpath⟩ := hs.numbered o' bd ho
      exact ⟨d', n, hd', by omega, hpath⟩
    · exact ⟨d, seq, hd, by omega, rfl⟩
  · rintro o' bd (ho | ⟨-, rfl⟩) path content hl
    · exact hs.inside o' bd ho path content hl
    · simp at hl
  · -- the number was not taken before
    have hnew : ∀ {o' : O} {bd' : BuildDir} {d' : Path} {n : Nat}, own o' bd' → bd'.path = buildsIn d' n →
        buildsIn d seq = buildsIn d n → False := by
      intro o' bd' d' n ho' hp' hq
      obtain ⟨d'', m, -, hm, hp''⟩ := hs.numbered o' bd' ho'
      have hmn := buildsIn_number (hp''.symm.trans hp')
      have := buildsIn_number hq
      omega
    rintro o1 o2 b1 b2 d1 d2 n (h1 | ⟨rfl, rfl⟩) (h2 | ⟨rfl, rfl⟩) hp1 hp2
    · exact hs.apart o1 o2 b1 b2 d1 d2 n h1 h2 hp1 hp2
    · refine (hnew h1 hp1 ?_).elim
      rw [buildsIn_number hp2]
    · refine (hnew h2 hp2 ?_).elim
      rw [buildsIn_number hp1]
    · rfl
  · rintro o' bd (ho | ⟨-, rfl⟩) path content hl
    · exact hs.intact o' bd ho path content hl
    · simp at hl
  · rcases hs.accounted path hp with h | h | ⟨o', bd, ho, hb⟩
    · exact .inl h
    · exact .inr (.inl h)
    · exact .inr (.inr ⟨o', bd, .inl ho, hb⟩)

/-- A number that is taken for nothing. -/
theorem skip (hs : Snapshots dirs sticks base own disk seq) : Snapshots dirs sticks base own disk (seq + 1) := by
  refine ⟨fun o bd ho => ?_, hs.inside, hs.apart, hs.intact, hs.accounted, hs.outside⟩
  obtain ⟨d, n, hd, hn, hpath⟩ := hs.numbered o bd ho
  exact ⟨d, n, hd, by omega, hpath⟩

/-- A build writes one file below its directory. -/
theorem write [DecidableEq O] (hs : Snapshots dirs sticks base own disk seq) (hu : Unnested dirs) (ho : own o bd)
    (hone : ∀ bd', own o bd' → bd' = bd) {path : Path} (content : Bytes) (hin : Inside bd.path path) :
    Snapshots dirs sticks base
      (fun o' bd' => o' ≠ o ∧ own o' bd' ∨ o' = o ∧ bd' = { bd with files := bd.files.insert path content })
      (Function.update disk path (some content)) seq := by
  refine ⟨?_, ?_, ?_, ?_, fun q hq => ?_, fun q hq => ?_⟩
  · rintro o' bd' (⟨-, ho'⟩ | ⟨-, rfl⟩)
    · exact hs.numbered o' bd' ho'
    · exact hs.numbered o bd ho
  · rintro o' bd' (⟨-, ho'⟩ | ⟨-, rfl⟩) q c hl
    · exact hs.inside o' bd' ho' q c hl
    · simp only at hl ⊢
      rw [Map.lookup_insert'] at hl
      split at hl
      · rename_i hq
        exact hq ▸ hin
      · exact hs.inside o bd ho q c hl
  · rintro o1 o2 b1 b2 d1 d2 n (⟨-, h1⟩ | ⟨rfl, rfl⟩) (⟨-, h2⟩ | ⟨rfl, rfl⟩) hp1 hp2
    · exact hs.apart o1 o2 b1 b2 d1 d2 n h1 h2 hp1 hp2
    · exact hs.apart o1 o2 b1 bd d1 d2 n h1 ho hp1 hp2
    · exact hs.apart o1 o2 bd b2 d1 d2 n ho h2 hp1 hp2
    · rfl
  · rintro o' bd' (⟨hne, ho'⟩ | ⟨-, rfl⟩) q c hl
    · rw [Function.update_apply, if_neg]
      · exact hs.intact o' bd' ho' q c hl
      · rintro rfl
        exact hne (hs.disjoint hu ho' ho (hs.inside o' bd' ho' q c hl).under hin.under)
    · simp only at hl
      rw [Map.lookup_insert'] at hl
      rw [Function.update_apply]
      split at hl
      · rename_i hq
        rw [if_pos hq]
        exact hl
      · rename_i hq
        rw [if_neg hq]
        exact hs.intact o bd ho q c hl
  · rw [Function.update_apply] at hq
    by_cases hqp : q = path
    · subst hqp
      exact .inr (.inr ⟨o, { bd with files := bd.files.insert q content }, .inr ⟨rfl, rfl⟩, hin.under⟩)
    · rw [if_neg hqp] at hq
      rcases hs.accounted q hq with h | h | ⟨o', bd', ho', hb⟩
      · exact .inl h
      · exact .inr (.inl h)
      · by_cases hoo : o' = o
        · subst hoo
          cases hone bd' ho'
          exact .inr (.inr ⟨o', { bd with files := bd.files.insert path content }, .inr ⟨rfl, rfl⟩, hb⟩)
        · exact .inr (.inr ⟨o', bd', .inl ⟨hoo, ho'⟩, hb⟩)
  · rw [Function.update_apply, if_neg]
    · exact hs.outside q hq
    · rintro rfl
      obtain ⟨d, n, hd, -, hpath⟩ := hs.numbered o bd ho
      have hunder := hin.under
      rw [hpath, hq d n hd] at hunder
      cases hunder

/-- Directories change hands: every new owner has that of one old owner, with files it wrote, and none is left over. -/
theorem pass (hs : Snapshots dirs sticks base own disk seq) {now : P → BuildDir → Prop} (was : P → O)
    (hwas : ∀ p bd', now p bd' → ∃ bd, own (was p) bd ∧ bd'.path = bd.path ∧
      ∀ path content, bd'.files.lookup path = some content → bd.files.lookup path = some content)
    (hinj : ∀ p q bd bd', now p bd → now q bd' → was p = was q → p = q)
    (hall : ∀ o bd, own o bd → ∃ p bd', now p bd' ∧ bd'.path = bd.path) :
    Snapshots dirs sticks base now disk seq := by
  refine ⟨fun p bd' hp => ?_, fun p bd' hp path content hl => ?_, fun p q b1 b2 d1 d2 n hp hq hp1 hp2 => ?_,
    fun p bd' hp path content hl => ?_, fun path hpath => ?_, hs.outside⟩
  · obtain ⟨bd, ho, heq, -⟩ := hwas p bd' hp
    rw [heq]
    exact hs.numbered _ bd ho
  · obtain ⟨bd, ho, heq, hfiles⟩ := hwas p bd' hp
    rw [heq]
    exact hs.inside _ bd ho path content (hfiles path content hl)
  · obtain ⟨bd, ho, heq, -⟩ := hwas p b1 hp
    obtain ⟨bd', ho', heq', -⟩ := hwas q b2 hq
    exact hinj p q b1 b2 hp hq (hs.apart _ _ bd bd' d1 d2 n ho ho' (heq ▸ hp1) (heq' ▸ hp2))
  · obtain ⟨bd, ho, -, hfiles⟩ := hwas p bd' hp
    exact hs.intact _ bd ho path content (hfiles path content hl)
  · rcases hs.accounted path hpath with h | h | ⟨o, bd, ho, hb⟩
    · exact .inl h
    · exact .inr (.inl h)
    · obtain ⟨p, bd', hp, heq⟩ := hall o bd ho
      exact .inr (.inr ⟨p, bd', hp, heq ▸ hb⟩)

/-- Owners go, and their directories with them: what others own is untouched. -/
theorem remove (hs : Snapshots dirs sticks base own disk seq) (hu : Unnested dirs) (gone : O → Prop)
    (hdisk : ∀ path, disk' path = none ∧ (∃ o bd, gone o ∧ own o bd ∧ under bd.path path = true) ∧ sticks path = false ∨
      disk' path = disk path ∧ ¬ ((∃ o bd, gone o ∧ own o bd ∧ under bd.path path = true) ∧ sticks path = false)) :
    Snapshots dirs sticks base (fun o bd => own o bd ∧ ¬ gone o) disk' seq := by
  refine ⟨fun o bd ho => hs.numbered o bd ho.1, fun o bd ho => hs.inside o bd ho.1,
    fun o o' bd bd' d d' n ho ho' => hs.apart o o' bd bd' d d' n ho.1 ho'.1, fun o bd ho path content hl => ?_,
    fun path hp => ?_, fun path hout => ?_⟩
  · rcases hdisk path with ⟨-, ⟨o', bd', hgone, ho', hunder⟩, -⟩ | ⟨heq, -⟩
    · have hsame := hs.disjoint hu ho.1 ho' (hs.inside o bd ho.1 path content hl).under hunder
      exact absurd (hsame ▸ hgone) ho.2
    · rw [heq]
      exact hs.intact o bd ho.1 path content hl
  · rcases hdisk path with ⟨hnone, -⟩ | ⟨heq, hnot⟩
    · exact absurd hnone hp
    · rw [heq] at hp
      rcases hs.accounted path hp with h | h | ⟨o, bd, ho, hb⟩
      · exact .inl h
      · exact .inr (.inl h)
      · by_cases hst : sticks path = true
        · exact .inr (.inl hst)
        · refine .inr (.inr ⟨o, bd, ⟨ho, fun hgone => hnot ⟨⟨o, bd, hgone, ho, hb⟩, ?_⟩⟩, hb⟩)
          simpa using hst
  · rcases hdisk path with ⟨-, ⟨o, bd, -, ho, hunder⟩, -⟩ | ⟨heq, -⟩
    · obtain ⟨d, n, hd, -, hpath⟩ := hs.numbered o bd ho
      rw [hpath, hout d n hd] at hunder
      cases hunder
    · rw [heq]
      exact hs.outside path hout

end Snapshots

end BareServer
