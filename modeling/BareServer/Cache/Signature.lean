/-
What a tree's signature sees of the tree: the words `dir_signature` folds into its hash, and which trees
have the same words. Nothing marks the end of a name or of a directory.
-/
import Mathlib.Data.List.Sort
import BareServer.Cache.Validators
import BareServer.Lib.Runs

namespace BareServer

open BareServer.Lib

/-! ## The words -/

/-- A visible entry by its own name; of a file, also its size and time. -/
abbrev Item := Str × Option FileMeta

/-- The visible entries below a directory in the order of their names, each before what it holds. -/
def listing : Node → List Item
  | .dir (some entries) => ((go entries).insertionSort fun a b => a.1 ≤ b.1).flatMap (·.2)
  | _ => []
where
  /-- What each visible entry is listed as, by its raw name. -/
  go : List (Bytes × Node) → List (Bytes × List Item)
  | [] => []
  | (raw, node) :: rest =>
    let name := fromUtf8Lossy raw
    let items : List Item :=
      match node with
      | .file info _ => [(name, some info)]
      | .dir entries => (name, none) :: listing (.dir entries)
      | .other => [(name, none)]
      | _ => []
    if isHidden name then go rest else (raw, items) :: go rest

def sizeWord (info : FileMeta) : UInt64 := info.size.toUInt64

/-- An unknown time counts as 0. -/
def timeWord (info : FileMeta) : UInt64 := (info.mtime.getD 0).toUInt64

/-- The words of one entry: the bytes of its name, and the size and time of a file. -/
def itemWords (item : Item) : List UInt64 :=
  item.1.map UInt8.toUInt64 ++ (item.2.elim [] fun info => [sizeWord info, timeWord info])

/-- The words that a tree's signature folds, in order. -/
def folded (root : Node) : List UInt64 := (listing root).flatMap itemWords

/-- What holds of a directory when it holds of its entries holds of every tree. -/
theorem Node.byEntries {P : Node → Prop} (dir : ∀ entries, (∀ e ∈ entries, P e.2) → P (.dir (some entries)))
    (leaf : ∀ node, (∀ entries, node ≠ .dir (some entries)) → P node) : ∀ node, P node
  | .dir (some entries) => dir entries fun e he =>
      have : sizeOf e.2 < 1 + (1 + sizeOf entries) := by
        have := List.sizeOf_lt_of_mem he
        obtain ⟨raw, node⟩ := e
        simp only [Prod.mk.sizeOf_spec] at this ⊢
        omega
      Node.byEntries dir leaf e.2
  | .dir none => leaf _ (by simp)
  | .file _ _ => leaf _ (by simp)
  | .symlink => leaf _ (by simp)
  | .other => leaf _ (by simp)
  | .gone => leaf _ (by simp)

/-- The entries of one directory, and what each adds to the hash. -/
theorem dirSignature_go (entries : List (Bytes × Node))
    (hdir : ∀ e ∈ entries, ∀ h, dirSignature e.2 h = (folded e.2).foldl fnvStep h) :
    dirSignature.go entries = (listing.go entries).map fun e => (e.1, fun h => (e.2.flatMap itemWords).foldl fnvStep h) := by
  induction entries with
  | nil => rfl
  | cons e rest ih =>
    obtain ⟨raw, node⟩ := e
    have ih := ih fun e he => hdir e (List.mem_cons_of_mem _ he)
    unfold dirSignature.go listing.go
    rw [ih]
    simp only
    split
    · rfl
    · rw [List.map_cons]
      congr 2
      funext h
      cases node with
      | file info data =>
        simp [itemWords, foldMeta, sizeWord, timeWord, List.foldl_map]
      | dir es =>
        have := hdir _ List.mem_cons_self ((fromUtf8Lossy raw).foldl (fun h b => fnvStep h b.toUInt64) h)
        simp only [folded] at this
        simp [itemWords, this, List.foldl_map]
      | _ => simp [itemWords, List.foldl_map]

/-- The signature is the fold of these words. -/
theorem dirSignature_folded (root : Node) (h : UInt64) : dirSignature root h = (folded root).foldl fnvStep h := by
  induction root using Node.byEntries generalizing h with
  | dir entries ih =>
    rw [dirSignature, dirSignature_go entries ih, folded, listing]
    rw [← List.map_insertionSort (fun a b : Bytes × List Item => a.1 ≤ b.1)]
    · rw [List.foldl_map, List.flatMap_assoc, List.foldl_flatMap]
    · exact fun a _ b _ => Iff.rfl
  | leaf node hleaf =>
    cases node with
    | dir entries =>
      cases entries with
      | none => rfl
      | some entries => exact absurd rfl (hleaf entries)
    | _ => rfl

/-! ## Names run together -/

/-- A file with the names listed since the file before it, its own included, joined without a separator. -/
structure Stretch where
  text : Str
  size : UInt64
  time : UInt64
  deriving DecidableEq

/-- The files of a listing, and the names left over after the last one. -/
def joinedFrom (acc : Str) : List Item → List Stretch × Str
  | [] => ([], acc)
  | (name, none) :: rest => joinedFrom (acc ++ name) rest
  | (name, some info) :: rest =>
    (⟨acc ++ name, sizeWord info, timeWord info⟩ :: (joinedFrom [] rest).1, (joinedFrom [] rest).2)

def joined (root : Node) : List Stretch × Str := joinedFrom [] (listing root)

def Stretch.run (j : Stretch) : Run UInt64 := ⟨j.text.map UInt8.toUInt64, j.size, j.time⟩

def written (js : List Stretch × Str) : List UInt64 := Run.spelled (js.1.map Stretch.run) (js.2.map UInt8.toUInt64)

theorem written_joinedFrom (items : List Item) (acc : Str) :
    written (joinedFrom acc items) = acc.map UInt8.toUInt64 ++ items.flatMap itemWords := by
  induction items generalizing acc with
  | nil => simp [joinedFrom, written, Run.spelled]
  | cons item items ih =>
    obtain ⟨name, _ | info⟩ := item
    · rw [joinedFrom, ih]
      simp [itemWords]
    · have ih := ih []
      rw [written] at ih
      rw [joinedFrom, written, List.map_cons, Run.spelled_cons, ih]
      simp [Stretch.run, itemWords]

/-- The words of a tree are its joined names, sizes and times. -/
theorem folded_eq (root : Node) : folded root = written (joined root) :=
  (written_joinedFrom (listing root) []).symm

/-- Is a word no byte of a file name? -/
def IsMark (w : UInt64) : Prop := w = 0 ∨ 256 ≤ w

/-- Names as a file system has them, not empty and without a zero byte, and times none of which could be a
byte of a name: 0, or 256 and later. -/
structure Stamped (root : Node) : Prop where
  name : ∀ item ∈ listing root, item.1 ≠ [] ∧ 0 ∉ item.1
  time : ∀ item ∈ listing root, ∀ info, item.2 = some info → IsMark (timeWord info)

theorem byte_not_mark {b : UInt8} (hb : b ≠ 0) : ¬ IsMark b.toUInt64 := by
  rintro (h | h)
  · exact hb (byteWord_injective h)
  · rw [UInt64.le_iff_toNat_le, UInt8.toNat_toUInt64] at h
    have := b.toNat_lt
    simp at h
    omega

theorem text_not_mark {s : Str} (h : 0 ∉ s) : ∀ w ∈ s.map UInt8.toUInt64, ¬ IsMark w := by
  intro w hw
  obtain ⟨b, hb, rfl⟩ := List.mem_map.1 hw
  exact byte_not_mark fun h0 => h (h0 ▸ hb)

/-- Each file of a stamped listing is a marked run, and no mark follows the last. -/
theorem joinedFrom_marked {items : List Item} (hname : ∀ item ∈ items, item.1 ≠ [] ∧ 0 ∉ item.1)
    (htime : ∀ item ∈ items, ∀ info, item.2 = some info → IsMark (timeWord info)) {acc : Str} (hacc : 0 ∉ acc) :
    (∀ r ∈ (joinedFrom acc items).1.map Stretch.run, r.Marked IsMark) ∧
      ∀ w ∈ (joinedFrom acc items).2.map UInt8.toUInt64, ¬ IsMark w := by
  induction items generalizing acc with
  | nil => exact ⟨fun r hr => (by cases hr), text_not_mark hacc⟩
  | cons item items ih =>
    obtain ⟨hne, hzero⟩ := hname item List.mem_cons_self
    have hmark := htime item List.mem_cons_self
    have ih := @ih (fun x hx => hname x (List.mem_cons_of_mem _ hx)) (fun x hx => htime x (List.mem_cons_of_mem _ hx))
    have hjoin : 0 ∉ acc ++ item.1 := by
      rw [List.mem_append]
      exact fun h => h.elim hacc hzero
    obtain ⟨name, _ | info⟩ := item
    · exact ih hjoin
    · obtain ⟨hruns, htail⟩ := ih List.not_mem_nil
      refine ⟨fun r hr => ?_, htail⟩
      rcases List.mem_cons.1 hr with rfl | hr
      · refine ⟨?_, text_not_mark hjoin, hmark info rfl⟩
        simp only [Stretch.run, ne_eq, List.map_eq_nil_iff, List.append_eq_nil_iff, not_and]
        exact fun _ => hne
      · exact hruns r hr

theorem run_injective {a b : Stretch} (h : a.run = b.run) : a = b := by
  obtain ⟨text, size, time⟩ := a
  obtain ⟨text', size', time'⟩ := b
  simp only [Stretch.run, Run.mk.injEq] at h
  obtain ⟨htext, rfl, rfl⟩ := h
  rw [List.map_injective_iff.2 byteWord_injective htext]

/-- The joined names, sizes and times of a stamped tree can be read off its words. -/
theorem written_injective {a b : Node} (ha : Stamped a) (hb : Stamped b) (h : written (joined a) = written (joined b)) :
    joined a = joined b := by
  obtain ⟨hruns, htail⟩ := joinedFrom_marked ha.name ha.time List.not_mem_nil
  obtain ⟨hruns', htail'⟩ := joinedFrom_marked hb.name hb.time List.not_mem_nil
  obtain ⟨hr, ht⟩ := Run.spelled_injective hruns hruns' htail htail' h
  exact Prod.ext (List.map_injective_iff.2 (fun _ _ => run_injective) hr) (List.map_injective_iff.2 byteWord_injective ht)

/-! ## Numbers that pass for characters -/

/-- A text, and the size or time that ends it. -/
structure Piece where
  text : Str
  number : UInt64
  deriving DecidableEq

/-- What a listing reads as: the texts that a number has ended, and the text after them. -/
structure Reading where
  pieces : List Piece
  text : Str
  deriving DecidableEq

/-- A size or a time below 256 is one more character of the text; any other ends the text. -/
def Reading.number (r : Reading) (n : UInt64) : Reading :=
  if n < 256 then { r with text := r.text ++ [n.toUInt8] } else ⟨r.pieces ++ [⟨r.text, n⟩], []⟩

def Reading.item (r : Reading) (item : Item) : Reading :=
  let named : Reading := { r with text := r.text ++ item.1 }
  item.2.elim named fun info => (named.number (sizeWord info)).number (timeWord info)

def reading (root : Node) : Reading := (listing root).foldl Reading.item ⟨[], []⟩

def Reading.words (r : Reading) : List UInt64 :=
  (r.pieces.flatMap fun p => p.text.map UInt8.toUInt64 ++ [p.number]) ++ r.text.map UInt8.toUInt64

theorem Reading.words_number (r : Reading) (n : UInt64) : (r.number n).words = r.words ++ [n] := by
  unfold Reading.number Reading.words
  split
  · rename_i hlt
    have hn : n.toUInt8.toUInt64 = n := by
      rw [← UInt64.toNat_inj, UInt8.toNat_toUInt64, UInt64.toNat_toUInt8,
        Nat.mod_eq_of_lt (show n.toNat < 2 ^ 8 from UInt64.lt_iff_toNat_lt.1 hlt)]
    rw [List.map_append, List.map_singleton, hn, List.append_assoc]
  · simp only [List.flatMap_append, List.flatMap_singleton, List.map_nil, List.append_nil, List.append_assoc]

theorem Reading.words_item (r : Reading) (item : Item) : (r.item item).words = r.words ++ itemWords item := by
  have hname : ({ r with text := r.text ++ item.1 } : Reading).words = r.words ++ item.1.map UInt8.toUInt64 := by
    simp only [Reading.words, List.map_append, List.append_assoc]
  obtain ⟨name, _ | info⟩ := item
  · rw [itemWords, Reading.item, Option.elim_none, Option.elim_none, hname, List.append_nil]
  · rw [itemWords, Reading.item, Option.elim_some, Option.elim_some, Reading.words_number, Reading.words_number, hname]
    simp only [List.append_assoc, List.cons_append, List.nil_append]

/-- The words of a tree are the numbers of its reading. -/
theorem folded_reading (root : Node) : folded root = (reading root).words := by
  have hitems : ∀ (items : List Item) (r : Reading), (items.foldl Reading.item r).words = r.words ++ items.flatMap itemWords := by
    intro items
    induction items with
    | nil => exact fun r => (List.append_nil _).symm
    | cons item items ih =>
      intro r
      rw [List.foldl_cons, ih, Reading.words_item, List.flatMap_cons, List.append_assoc]
  rw [reading, hitems]
  rfl

theorem Reading.foldl_name (name : Str) (r : Reading) :
    (name.map UInt8.toUInt64).foldl Reading.number r = { r with text := r.text ++ name } := by
  induction name generalizing r with
  | nil => rw [List.map_nil, List.foldl_nil, List.append_nil]
  | cons b name ih =>
    have hlt : b.toUInt64 < 256 := by
      rw [UInt64.lt_iff_toNat_lt, UInt8.toNat_toUInt64]
      exact b.toNat_lt
    have hb : b.toUInt64.toUInt8 = b := UInt8.toUInt8_toUInt64 b
    rw [List.map_cons, List.foldl_cons, ih, Reading.number, if_pos hlt, hb]
    simp only [List.append_assoc, List.cons_append, List.nil_append]

/-- A tree reads as its words tell. -/
theorem reading_folded (root : Node) : reading root = (folded root).foldl Reading.number ⟨[], []⟩ := by
  have hitem : ∀ (r : Reading) (item : Item), (itemWords item).foldl Reading.number r = r.item item := by
    rintro r ⟨name, _ | info⟩
    · rw [itemWords, Option.elim_none, List.append_nil, Reading.foldl_name]
      rfl
    · rw [itemWords, Option.elim_some, List.foldl_append, Reading.foldl_name]
      rfl
  rw [folded, List.foldl_flatMap, reading]
  simp only [hitem]

/-- Two trees have the same words exactly when they read alike. -/
theorem folded_eq_iff (a b : Node) : folded a = folded b ↔ reading a = reading b :=
  ⟨fun h => by rw [reading_folded, reading_folded, h], fun h => by rw [folded_reading, folded_reading, h]⟩

/-! ## What the watcher can miss -/

/-- The files a walk meets: URL, size and time. -/
def builds (root : Node) : Set (Str × FileMeta) :=
  fun x => ∃ fs, found [] root = some fs ∧ ∃ f ∈ fs, f.url = x.1 ∧ f.info = x.2

/-- A signature tells two trees from which different files are built apart exactly when they read differently, in a
text, in a size or time that ends one, or in how many there are. Of two stamped trees it does when these differ file by
file: in a joined name, a size or a time, or in how many there are or the names left over. -/
theorem folded_tells_apart (a b : Node) :
    ((builds a ≠ builds b → folded a ≠ folded b) ↔ builds a = builds b ∨ reading a ≠ reading b) ∧
      (Stamped a → Stamped b →
        ((builds a ≠ builds b → folded a ≠ folded b) ↔ builds a = builds b ∨ joined a ≠ joined b)) := by
  refine ⟨?_, fun ha hb => ?_⟩
  · rw [ne_eq (folded a), folded_eq_iff]
    exact or_iff_not_imp_left.symm
  · have hread : folded a = folded b ↔ joined a = joined b := by
      rw [folded_eq, folded_eq]
      exact ⟨written_injective ha hb, fun h => by rw [h]⟩
    rw [ne_eq (folded a), hread]
    exact or_iff_not_imp_left.symm

def movedFile : Node := .file ⟨3, some 1700000000000000000⟩ (some (str "abc"))

/-- Renaming `x` to `y` is seen. -/
theorem folded_tells_apart_renamed :
    let a := Node.dir (some [(str "x", movedFile)])
    let b := Node.dir (some [(str "y", movedFile)])
    joined a ≠ joined b ∧ (builds a ≠ builds b → folded a ≠ folded b) := by
  intro a b
  have hstamped : ∀ name : Str, name ≠ [] → 0 ∉ name → listing (.dir (some [(name, movedFile)])) =
      [(name, some ⟨3, some 1700000000000000000⟩)] → Stamped (.dir (some [(name, movedFile)])) := by
    intro name hne hzero hlisting
    refine ⟨?_, ?_⟩ <;> rw [hlisting] <;> intro item hitem <;> rw [List.mem_singleton.1 hitem]
    · exact ⟨hne, hzero⟩
    · rintro _ ⟨⟩
      exact .inr (by decide)
  have ha : Stamped a := hstamped (str "x") (by decide) (by decide) (by rfl)
  have hb : Stamped b := hstamped (str "y") (by decide) (by decide) (by rfl)
  have hne : joined a ≠ joined b := by decide +kernel
  exact ⟨hne, ((folded_tells_apart a b).2 ha hb).2 (.inr hne)⟩

/-- Moving `a/b` to `ab` goes unseen. -/
theorem folded_tells_apart_moved :
    let a := Node.dir (some [(str "a", .dir (some [(str "b", movedFile)]))])
    let b := Node.dir (some [(str "ab", movedFile)])
    ¬ (builds a ≠ builds b → folded a ≠ folded b) := by
  intro a b h
  have hsame : folded a = folded b := by decide +kernel
  refine h (fun heq => ?_) hsame
  have ha : builds a (str "/a/b", ⟨3, some 1700000000000000000⟩) := ⟨_, rfl, _, List.mem_cons_self, rfl, rfl⟩
  rw [heq] at ha
  obtain ⟨fs, hfs, f, hf, hurl, -⟩ := ha
  have hfound : found [] b = some [⟨str "/ab", ⟨3, some 1700000000000000000⟩, some (str "abc")⟩] := by rfl
  rw [hfound] at hfs
  cases hfs
  rw [List.mem_singleton.1 hf] at hurl
  exact absurd hurl (by decide)

end BareServer
