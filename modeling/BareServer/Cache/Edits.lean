/-
What an edit of one file does to the signatures that the watcher compares (`cache.rs`, `dir_signature`,
`file_signature` and `tls_signature`): a new size or a new time changes one word of what is folded, and no later
word undoes it.
-/
import BareServer.Cache.Signature

namespace BareServer

open BareServer.Lib

/-! ## Sizes and times -/

/-- What the file system tells of a file: its size, and its modification time in nanoseconds from the Unix epoch on, or
back, when it tells one. -/
structure Stat where
  size : UInt64
  mtime : Option Int

/-- `duration_since(UNIX_EPOCH)`, which fails before the epoch. -/
def sinceEpoch (t : Int) : Option Nat := if t < 0 then none else some t.toNat

def Stat.info (s : Stat) : FileMeta := ⟨s.size.toNat, s.mtime.bind sinceEpoch⟩

/-- Two times are the same up to 2^64 nanoseconds, where a time before the epoch, or none, counts as the epoch. -/
def SameTime (t t' : Option Int) : Prop := max (t.getD 0) 0 % 2 ^ 64 = max (t'.getD 0) 0 % 2 ^ 64

def Stat.Differs (s s' : Stat) : Prop := s.size ≠ s'.size ∨ ¬ SameTime s.mtime s'.mtime

def Stat.words (s : Stat) : List UInt64 := [sizeWord s.info, timeWord s.info]

section

variable {s s' : Stat}

theorem sizeWord_info (s : Stat) : sizeWord s.info = s.size := by
  rw [sizeWord, Stat.info, ← UInt64.toNat_inj]
  simp

theorem timeWord_info_iff : timeWord s.info = timeWord s'.info ↔ SameTime s.mtime s'.mtime := by
  have hcount : ∀ t : Option Int, (((t.bind sinceEpoch).getD 0 : Nat) : Int) = max (t.getD 0) 0 := by
    intro t
    cases t with
    | none => rfl
    | some t =>
      rw [Option.bind_some, sinceEpoch, Option.getD_some]
      split
      · rw [Option.getD_none]
        omega
      · rw [Option.getD_some]
        omega
  rw [SameTime, ← hcount, ← hcount, timeWord, timeWord, ← UInt64.toNat_inj]
  simp only [Stat.info, Nat.toUInt64_eq, UInt64.toNat_ofNat']
  omega

/-- Where only the size or only the time is changed, the words are the same or differ at one place. -/
theorem Stat.words_cases (honly : s.size = s'.size ∨ s.mtime = s'.mtime) :
    s.Differs s' ∧ OneOff (· ≠ ·) s.words s'.words ∨ ¬ s.Differs s' ∧ s.words = s'.words := by
  have hsize : sizeWord s.info = sizeWord s'.info ↔ s.size = s'.size := by rw [sizeWord_info, sizeWord_info]
  have htime := @timeWord_info_iff s s'
  have hdiffers : s.Differs s' ↔ ¬ (s.size = s'.size ∧ SameTime s.mtime s'.mtime) := not_and_or.symm
  unfold Stat.words
  by_cases hs : s.size = s'.size
  · rw [hsize.2 hs]
    by_cases ht : SameTime s.mtime s'.mtime
    · rw [htime.2 ht]
      exact .inr ⟨fun h => hdiffers.1 h ⟨hs, ht⟩, rfl⟩
    · exact .inl ⟨.inr ht, .later _ (.here [] (mt htime.1 ht))⟩
  · have ht : SameTime s.mtime s'.mtime := by rw [honly.resolve_left hs, SameTime]
    rw [htime.2 ht]
    exact .inl ⟨.inl hs, .here _ (mt hsize.1 hs)⟩

end

/-! ## One file of a tree -/

/-- Two trees that differ in what is told of one visible regular file, at any depth, and in its bytes. -/
inductive Edited (info info' : FileMeta) : Node → Node → Prop
  | file {name : Bytes} (before after : List (Bytes × Node)) (data data' : Option Bytes)
      (hv : isHidden (fromUtf8Lossy name) = false) :
      Edited info info' (.dir (some (before ++ (name, .file info data) :: after)))
        (.dir (some (before ++ (name, .file info' data') :: after)))
  | inside {name : Bytes} {child child' : Node} (before after : List (Bytes × Node))
      (hv : isHidden (fromUtf8Lossy name) = false) (h : Edited info info' child child') :
      Edited info info' (.dir (some (before ++ (name, child) :: after))) (.dir (some (before ++ (name, child') :: after)))

def Restated (info info' : FileMeta) (x x' : Item) : Prop := ∃ name, x = (name, some info) ∧ x' = (name, some info')

section

variable {info info' : FileMeta}

theorem listing_go_cons (e : Bytes × Node) (rest : List (Bytes × Node)) :
    listing.go (e :: rest) = listing.go [e] ++ listing.go rest := by
  obtain ⟨raw, node⟩ := e
  cases node <;> simp only [listing.go] <;> split <;> rfl

theorem listing_go_append (as bs : List (Bytes × Node)) : listing.go (as ++ bs) = listing.go as ++ listing.go bs := by
  induction as with
  | nil => rfl
  | cons e as ih => rw [List.cons_append, listing_go_cons, listing_go_cons e as, ih, List.append_assoc]

/-- Entries under one name stay where they are when a directory is sorted. -/
theorem listing_replaced {name : Bytes} {node node' : Node} {items items' : List Item} (before after : List (Bytes × Node))
    (hn : listing.go [(name, node)] = [(name, items)]) (hn' : listing.go [(name, node')] = [(name, items')])
    (h : OneOff (Restated info info') items items') :
    OneOff (Restated info info') (listing (.dir (some (before ++ (name, node) :: after))))
      (listing (.dir (some (before ++ (name, node') :: after)))) := by
  let Same (x x' : Bytes × List Item) : Prop := x.1 = x'.1 ∧ OneOff (Restated info info') x.2 x'.2
  have hentries : OneOff Same (listing.go (before ++ (name, node) :: after)) (listing.go (before ++ (name, node') :: after)) := by
    rw [listing_go_append, listing_go_append, listing_go_cons (name, node), listing_go_cons (name, node'), hn, hn']
    exact .middle _ _ ⟨rfl, h⟩
  rw [listing, listing]
  refine (hentries.insertionSort ?_).flatMap fun _ _ hsame => hsame.2
  intro x x' hsame b
  rw [hsame.1]
  exact ⟨Iff.rfl, Iff.rfl⟩

theorem Edited.listing {a b : Node} (h : Edited info info' a b) : OneOff (Restated info info') (listing a) (listing b) := by
  induction h with
  | @file name before after data data' hv =>
    refine @listing_replaced _ _ name _ _ [(fromUtf8Lossy name, some info)] [(fromUtf8Lossy name, some info')]
      before after ?_ ?_ (.here [] ⟨_, rfl, rfl⟩)
    · rw [listing.go, if_neg (by simp [hv])]
      rfl
    · rw [listing.go, if_neg (by simp [hv])]
      rfl
  | @inside name child child' before after hv h ih =>
    -- a child that holds a file is a directory
    have hdir : ∀ {x y : Node}, Edited info info' x y → ∃ es es', x = .dir es ∧ y = .dir es' := by
      rintro x y (_ | _)
      · exact ⟨_, _, rfl, rfl⟩
      · exact ⟨_, _, rfl, rfl⟩
    obtain ⟨es, es', rfl, rfl⟩ := hdir h
    refine @listing_replaced _ _ name _ _ ((fromUtf8Lossy name, none) :: BareServer.listing (.dir es))
      ((fromUtf8Lossy name, none) :: BareServer.listing (.dir es')) before after ?_ ?_ (.later _ ih)
    · rw [listing.go, if_neg (by simp [hv])]
      rfl
    · rw [listing.go, if_neg (by simp [hv])]
      rfl

theorem treeSignature_folded (root : Node) : treeSignature root = (folded root).foldl fnvStep fnvBasis :=
  dirSignature_folded root fnvBasis

end

section

variable {s s' : Stat}

/-- The signature of a tree changes exactly with the words of the file. -/
theorem Edited.signature (honly : s.size = s'.size ∨ s.mtime = s'.mtime) {a b : Node} (h : Edited s.info s'.info a b) :
    treeSignature a ≠ treeSignature b ↔ s.Differs s' := by
  have hitem : ∀ (t : Stat) (name : Str), itemWords (name, some t.info) = name.map UInt8.toUInt64 ++ t.words :=
    fun _ _ => rfl
  rw [treeSignature_folded, treeSignature_folded]
  unfold folded
  rcases Stat.words_cases honly with ⟨hd, hwords⟩ | ⟨hd, hwords⟩
  · refine iff_of_true (OneOff.foldl_ne fnvStep_cancels (h.listing.flatMap ?_) fnvBasis) hd
    rintro _ _ ⟨name, rfl, rfl⟩
    rw [hitem, hitem]
    exact hwords.append_left _
  · refine iff_of_false (not_not.2 ?_) hd
    rw [h.listing.flatMap_eq]
    rintro _ _ ⟨name, rfl, rfl⟩
    rw [hitem, hitem, hwords]

/-! ## One file of a list -/

theorem tlsSignature_folded (files : List (Option FileMeta)) :
    tlsSignature files = (files.map fileSignature).foldl fnvStep fnvBasis := by
  rw [List.foldl_map]
  rfl

/-- A file listed once is one place of what is told of the list. -/
theorem oneOff_update {paths : List Str} {path : Str} {told : Str → Option FileMeta} {info info' : FileMeta}
    (hone : paths.count path = 1) (htold : told path = some info) :
    OneOff (fun x x' => x = some info ∧ x' = some info') (paths.map told)
      (paths.map (Function.update told path (some info'))) := by
  induction paths with
  | nil => simp at hone
  | cons q paths ih =>
    rw [List.map_cons, List.map_cons]
    by_cases hq : q = path
    · subst hq
      have hrest : ∀ x ∈ paths, Function.update told q (some info') x = told x := by
        intro x hx
        refine Function.update_of_ne ?_ _ _
        rintro rfl
        rw [List.count_cons_self, Nat.succ.injEq, List.count_eq_zero] at hone
        exact hone hx
      rw [List.map_congr_left hrest, Function.update_self]
      exact .here _ ⟨htold, rfl⟩
    · rw [List.count_cons_of_ne (by simpa using hq)] at hone
      rw [Function.update_of_ne hq]
      exact .later _ (ih hone)

theorem tlsSignature_update (honly : s.size = s'.size ∨ s.mtime = s'.mtime) {paths : List Str} {path : Str}
    {told : Str → Option FileMeta} (hone : paths.count path = 1) (htold : told path = some s.info) :
    tlsSignature (paths.map told) ≠ tlsSignature (paths.map (Function.update told path (some s'.info))) ↔ s.Differs s' := by
  have hplace := @oneOff_update paths path told s.info s'.info hone htold
  have hfile : ∀ t : Stat, fileSignature (some t.info) = t.words.foldl fnvStep fnvBasis := fun _ => rfl
  rw [tlsSignature_folded, tlsSignature_folded]
  rcases Stat.words_cases honly with ⟨hd, hwords⟩ | ⟨hd, hwords⟩
  · refine iff_of_true (OneOff.foldl_ne fnvStep_cancels (hplace.map ?_) fnvBasis) hd
    rintro _ _ ⟨rfl, rfl⟩
    rw [hfile, hfile]
    exact hwords.foldl_ne fnvStep_cancels fnvBasis
  · refine iff_of_false (not_not.2 ?_) hd
    rw [hplace.map_eq]
    rintro _ _ ⟨rfl, rfl⟩
    rw [hfile, hfile, hwords]

/-- Where only the size or only the time of one visible file is changed, at any depth of any tree, the tree's signature
changes exactly when the size or the time is another, times counted from the epoch up to 2^64 nanoseconds and earlier ones
as the epoch; and so does the signature of a list of files that names the file once. -/
theorem edit_changes_signature (honly : s.size = s'.size ∨ s.mtime = s'.mtime) :
    (∀ a b, Edited s.info s'.info a b → (treeSignature a ≠ treeSignature b ↔ s.Differs s')) ∧
    ∀ (paths : List Str) (path : Str) (told : Str → Option FileMeta), paths.count path = 1 → told path = some s.info →
      (tlsSignature (paths.map told) ≠ tlsSignature (paths.map (Function.update told path (some s'.info))) ↔ s.Differs s') :=
  ⟨fun _ _ h => h.signature honly, fun _ _ _ hone htold => tlsSignature_update honly hone htold⟩

end

def oneDeep (s : Stat) : Node := .dir (some [(str "d", .dir (some [(str "a", .file s.info none)]))])

theorem oneDeep_edited (s s' : Stat) : Edited s.info s'.info (oneDeep s) (oneDeep s') :=
  .inside [] [] (by decide) (.file [] [] none none (by decide))

/-- A file that grows by a byte. -/
theorem edit_changes_signature_grown : treeSignature (oneDeep ⟨3, some 1700000000000000000⟩) ≠
    treeSignature (oneDeep ⟨4, some 1700000000000000000⟩) :=
  ((@edit_changes_signature ⟨3, _⟩ ⟨4, _⟩ (.inr rfl)).1 _ _ (oneDeep_edited _ _)).2 (.inl (show (3 : UInt64) ≠ 4 by decide))

/-- A time before the epoch that changes to another goes unseen. -/
theorem edit_before_epoch : ¬ ∀ (s s' : Stat) (t t' : Int), s.mtime = some t → s'.mtime = some t' → s.size = s'.size →
    t % 2 ^ 64 ≠ t' % 2 ^ 64 → ∀ a b, Edited s.info s'.info a b → treeSignature a ≠ treeSignature b := by
  intro h
  have hsame : oneDeep ⟨3, some (-1)⟩ = oneDeep ⟨3, some (-2)⟩ := rfl
  exact h ⟨3, some (-1)⟩ ⟨3, some (-2)⟩ (-1) (-2) rfl rfl rfl (by decide) _ _ (oneDeep_edited _ _) (congrArg treeSignature hsame)

end BareServer
