/-
What a walk does to a document tree. The tree's visible regular files, in walk order, are a list;
a walk is one pass over that list. A file of the list is one reached from the root through visible
directories, and under distinct names no two of them share a URL.
-/
import BareServer.Cache.Walk

namespace BareServer

open BareServer.Lib

/-! ## The files of a tree -/

structure Found where
  url : Str
  info : FileMeta
  data : Option Bytes

/-- The visible regular files below a directory, in walk order; nothing when a visible directory
cannot be read. -/
def found (pre : Str) : Node → Option (List Found)
  | .dir (some entries) => go pre entries
  | _ => none
where
  go (pre : Str) : List (Bytes × Node) → Option (List Found)
  | [] => some []
  | (raw, node) :: rest =>
    let name := fromUtf8Lossy raw
    if isHidden name then go pre rest
    else
      let url := pre ++ str "/" ++ name
      match node with
      | .file info data => (go pre rest).map (⟨url, info, data⟩ :: ·)
      | .dir entries => (found url (.dir entries)).bind fun fs => (go pre rest).map (fs ++ ·)
      | _ => go pre rest

section
variable {pre : Str} {raw : Bytes} {rest : List (Bytes × Node)}

theorem found_hidden {node : Node} (h : isHidden (fromUtf8Lossy raw) = true) :
    found.go pre ((raw, node) :: rest) = found.go pre rest := by
  rw [found.go, if_pos h]

theorem found_file (h : isHidden (fromUtf8Lossy raw) = false) (info : FileMeta) (data : Option Bytes) :
    found.go pre ((raw, .file info data) :: rest) =
      (found.go pre rest).map (⟨pre ++ str "/" ++ fromUtf8Lossy raw, info, data⟩ :: ·) := by
  rw [found.go, if_neg (by simp [h])]

theorem found_dir (h : isHidden (fromUtf8Lossy raw) = false) (entries : Option (List (Bytes × Node))) :
    found.go pre ((raw, .dir entries) :: rest) =
      (found (pre ++ str "/" ++ fromUtf8Lossy raw) (.dir entries)).bind fun fs =>
        (found.go pre rest).map (fs ++ ·) := by
  rw [found.go, if_neg (by simp [h])]

theorem found_skip (h : isHidden (fromUtf8Lossy raw) = false) {node : Node} (hf : ∀ info data, node ≠ .file info data)
    (hd : ∀ entries, node ≠ .dir entries) : found.go pre ((raw, node) :: rest) = found.go pre rest := by
  rw [found.go, if_neg (by simp [h])]
  cases node with
  | file info data => exact (hf info data rfl).elim
  | dir entries => exact (hd entries rfl).elim
  | _ => rfl

end

/-! ## The files a walk meets -/

/-- The files met, and whether no visible directory was unreadable. -/
structure Visit where
  files : List Found
  whole : Bool

namespace Visit

def add (f : Found) (v : Visit) : Visit := { v with files := f :: v.files }

/-- One visit, and the next unless the first broke off. -/
def andThen (v w : Visit) : Visit := if v.whole then ⟨v.files ++ w.files, w.whole⟩ else v

/-- What a visit amounts to as a pass of a step that may fail. -/
def pass {β : Type} (step : β → Found → Option β) (v : Visit) (b : β) : Option β :=
  (v.files.foldlM step b).bind fun b' => if v.whole then some b' else none

theorem pass_add {β : Type} (step : β → Found → Option β) (f : Found) (v : Visit) (b : β) :
    (v.add f).pass step b = (step b f).bind (v.pass step) := by
  unfold pass add
  rw [List.foldlM_cons]
  cases step b f <;> rfl

theorem pass_andThen {β : Type} (step : β → Found → Option β) (v w : Visit) (b : β) :
    (v.andThen w).pass step b = (v.pass step b).bind (w.pass step) := by
  unfold andThen
  cases hv : v.whole with
  | false =>
    rw [if_neg Bool.false_ne_true]
    unfold pass
    rw [hv]
    cases v.files.foldlM step b <;> rfl
  | true =>
    rw [if_pos rfl]
    unfold pass
    rw [hv, List.foldlM_append]
    cases v.files.foldlM step b <;> rfl

def all (v : Visit) : Option (List Found) := if v.whole then some v.files else none

theorem all_add (f : Found) (v : Visit) : (v.add f).all = v.all.map (f :: ·) := by
  unfold all add
  cases v.whole <;> rfl

theorem all_andThen (v w : Visit) : (v.andThen w).all = v.all.bind fun fs => w.all.map (fs ++ ·) := by
  unfold all andThen
  cases hv : v.whole with
  | false =>
    rw [if_neg Bool.false_ne_true, hv]
    rfl
  | true =>
    rw [if_pos rfl, if_pos rfl, Option.bind_some]
    cases w.whole <;> rfl

/-- A pass over a visit succeeds on all its files or not at all. -/
theorem pass_eq {β : Type} (step : β → Found → Option β) (v : Visit) (b : β) :
    v.pass step b = v.all.bind fun fs => fs.foldlM step b := by
  unfold pass all
  cases v.whole with
  | false => cases v.files.foldlM step b <;> rfl
  | true =>
    rw [if_pos rfl, Option.bind_some]
    cases v.files.foldlM step b <;> rfl

end Visit

/-- The visible regular files below a directory, in walk order, up to the first visible directory that cannot be
read. -/
def visited (pre : Str) : Node → Visit
  | .dir (some entries) => go pre entries
  | _ => ⟨[], false⟩
where
  go (pre : Str) : List (Bytes × Node) → Visit
  | [] => ⟨[], true⟩
  | (raw, node) :: rest =>
    let name := fromUtf8Lossy raw
    if isHidden name then go pre rest
    else
      let url := pre ++ str "/" ++ name
      match node with
      | .file info data => (go pre rest).add ⟨url, info, data⟩
      | .dir entries => (visited url (.dir entries)).andThen (go pre rest)
      | _ => go pre rest

/-! ## A walk as a pass -/

section
variable {env : BuildEnv} {p : Policy} {buildDir : Option Path} {pre : Str} {raw : Bytes} {rest : List (Bytes × Node)}

theorem walk_file (h : isHidden (fromUtf8Lossy raw) = false) (info : FileMeta) (data : Option Bytes) (b : Building) :
    walk.go env p buildDir pre ((raw, .file info data) :: rest) b =
      (walkFile env p buildDir (pre ++ str "/" ++ fromUtf8Lossy raw) info data b).bind
        (walk.go env p buildDir pre rest) := by
  rw [walk.go, if_neg (by simp [h])]
  simp only
  cases walkFile env p buildDir (pre ++ str "/" ++ fromUtf8Lossy raw) info data b <;> rfl

theorem walk_dir (h : isHidden (fromUtf8Lossy raw) = false) (entries : Option (List (Bytes × Node))) (b : Building) :
    walk.go env p buildDir pre ((raw, .dir entries) :: rest) b =
      (walk env p buildDir (pre ++ str "/" ++ fromUtf8Lossy raw) (.dir entries) b).bind
        (walk.go env p buildDir pre rest) := by
  rw [walk.go, if_neg (by simp [h])]
  simp only
  cases walk env p buildDir (pre ++ str "/" ++ fromUtf8Lossy raw) (.dir entries) b <;> rfl

theorem walk_skip (h : isHidden (fromUtf8Lossy raw) = false) {node : Node} (hf : ∀ info data, node ≠ .file info data)
    (hd : ∀ entries, node ≠ .dir entries) (b : Building) :
    walk.go env p buildDir pre ((raw, node) :: rest) b = walk.go env p buildDir pre rest b := by
  rw [walk.go, if_neg (by simp [h])]
  cases node with
  | file info data => exact (hf info data rfl).elim
  | dir entries => exact (hd entries rfl).elim
  | _ => rfl

end

def walkFound (env : BuildEnv) (p : Policy) (buildDir : Option Path) (b : Building) (f : Found) : Option Building :=
  walkFile env p buildDir f.url f.info f.data b

/-- A walk is a pass over the files it meets. -/
theorem walk_visited (env : BuildEnv) (p : Policy) (buildDir : Option Path) (pre : Str) (node : Node) :
    ∀ b, walk env p buildDir pre node b = (visited pre node).pass (walkFound env p buildDir) b := by
  refine visited.induct
    (motive_1 := fun pre entries => ∀ b, walk.go env p buildDir pre entries b =
      (visited.go pre entries).pass (walkFound env p buildDir) b)
    (motive_2 := fun pre node => ∀ b, walk env p buildDir pre node b =
      (visited pre node).pass (walkFound env p buildDir) b)
    ?dir ?unreadable ?nil ?hidden ?file ?subdir ?skip pre node
  case dir =>
    intro pre entries ih b
    rw [walk, visited]
    exact ih b
  case unreadable =>
    intro pre node hne b
    rw [walk, visited]
    · rfl
    · exact hne
    · exact hne
  case nil =>
    intro pre b
    rw [walk.go, visited.go]
    rfl
  case hidden =>
    intro pre raw node rest name hh ih b
    rw [walk.go, visited.go, if_pos hh, if_pos hh]
    exact ih b
  case file =>
    intro pre raw rest name hh info data ih b
    rw [walk_file (by simpa [name] using hh), visited.go, if_neg hh, Visit.pass_add, funext ih]
    rfl
  case subdir =>
    intro pre raw rest name hh url entries ih1 ih2 b
    rw [walk_dir (by simpa [name] using hh), visited.go, if_neg hh, Visit.pass_andThen, ih1 b, funext ih2]
  case skip =>
    intro pre raw node rest name hh hf hd ih b
    rw [walk_skip (by simpa [name] using hh) hf hd, visited.go, if_neg hh]
    cases node with
    | file info data => exact (hf info data rfl).elim
    | dir entries => exact (hd entries rfl).elim
    | _ => exact ih b

/-- A visit that does not break off has met every file of the tree. -/
theorem found_visited (pre : Str) (node : Node) : found pre node = (visited pre node).all := by
  refine visited.induct
    (motive_1 := fun pre entries => found.go pre entries = (visited.go pre entries).all)
    (motive_2 := fun pre node => found pre node = (visited pre node).all)
    ?dir ?unreadable ?nil ?hidden ?file ?subdir ?skip pre node
  case dir =>
    intro pre entries ih
    rw [found, visited]
    exact ih
  case unreadable =>
    intro pre node hne
    rw [found, visited]
    · rfl
    · exact hne
    · exact hne
  case nil =>
    intro pre
    rw [found.go, visited.go]
    rfl
  case hidden =>
    intro pre raw node rest name hh ih
    rw [found_hidden hh, visited.go, if_pos hh]
    exact ih
  case file =>
    intro pre raw rest name hh info data ih
    rw [found_file (by simpa [name] using hh), visited.go, if_neg hh, Visit.all_add, ih]
  case subdir =>
    intro pre raw rest name hh url entries ih1 ih2
    rw [found_dir (by simpa [name] using hh), visited.go, if_neg hh, Visit.all_andThen, ih1, ih2]
  case skip =>
    intro pre raw node rest name hh hf hd ih
    rw [found_skip (by simpa [name] using hh) hf hd, visited.go, if_neg hh]
    cases node with
    | file info data => exact (hf info data rfl).elim
    | dir entries => exact (hd entries rfl).elim
    | _ => exact ih

theorem walk_eq (env : BuildEnv) (p : Policy) (buildDir : Option Path) (pre : Str) (node : Node) (b : Building) :
    walk env p buildDir pre node b = (found pre node).bind fun fs => fs.foldlM (walkFound env p buildDir) b := by
  rw [walk_visited, found_visited, Visit.pass_eq]

/-! ## Reaching a file -/

/-- `At root names n`: the visible components `names` lead from `root` to `n`. A symlink is no
directory, so nothing lies beyond one. -/
inductive At : Node → List Str → Node → Prop
  | here (n : Node) : At n [] n
  | down {entries : List (Bytes × Node)} {name : Str} {child n : Node} {names : List Str} :
      (name, child) ∈ entries → isHidden name = false → At child names n →
      At (.dir (some entries)) (name :: names) n

def urlOf (names : List Str) : Str := names.flatMap fun n => str "/" ++ n

@[simp] theorem urlOf_nil : urlOf [] = [] := rfl

theorem urlOf_cons (n : Str) (names : List Str) : urlOf (n :: names) = str "/" ++ n ++ urlOf names := by
  simp [urlOf]

/-- A file name: UTF-8, not empty, without a separator. -/
structure IsName (n : Bytes) : Prop where
  utf8 : isUtf8 n = true
  nonempty : n ≠ []
  noSlash : 47 ∉ n

/-- Every directory of the tree holds distinct names, all of them UTF-8. -/
inductive WellNamed : Node → Prop
  | file (info : FileMeta) (data : Option Bytes) : WellNamed (.file info data)
  | unreadable : WellNamed (.dir none)
  | dir {entries : List (Bytes × Node)} : (entries.map (·.1)).Nodup → (∀ e ∈ entries, IsName e.1) →
      (∀ e ∈ entries, WellNamed e.2) → WellNamed (.dir (some entries))
  | symlink : WellNamed .symlink
  | other : WellNamed .other
  | gone : WellNamed .gone

/-- A file of the list is one the tree's visible components lead to. -/
theorem mem_found (pre : Str) (node : Node) : WellNamed node → ∀ fs, found pre node = some fs → ∀ f,
    f ∈ fs ↔ ∃ names, At node names (.file f.info f.data) ∧ f.url = pre ++ urlOf names := by
  refine found.induct
    (motive_1 := fun pre entries => (∀ e ∈ entries, IsName e.1) → (∀ e ∈ entries, WellNamed e.2) →
      ∀ fs, found.go pre entries = some fs → ∀ f, f ∈ fs ↔
        ∃ e ∈ entries, isHidden e.1 = false ∧ ∃ names, At e.2 names (.file f.info f.data) ∧
          f.url = pre ++ str "/" ++ e.1 ++ urlOf names)
    (motive_2 := fun pre node => WellNamed node → ∀ fs, found pre node = some fs → ∀ f,
      f ∈ fs ↔ ∃ names, At node names (.file f.info f.data) ∧ f.url = pre ++ urlOf names)
    ?dir ?unreadable ?nil ?hidden ?file ?subdir ?skip pre node
  case dir =>
    rintro pre entries ih (_ | _ | ⟨hnd, hn, hw⟩) fs hfs f
    rw [found] at hfs
    rw [ih hn hw fs hfs f]
    constructor
    · rintro ⟨e, he, hv, names, hat, hu⟩
      exact ⟨e.1 :: names, .down he hv hat, by rw [hu, urlOf_cons]; simp only [List.append_assoc]⟩
    · rintro ⟨_, ⟨⟩ | @⟨_, name, child, _, names, hmem, hv, hat⟩, hu⟩
      exact ⟨(name, child), hmem, hv, names, hat, by rw [hu, urlOf_cons]; simp only [List.append_assoc]⟩
  case unreadable =>
    intro pre node hne hw fs hfs
    rw [found] at hfs
    · cases hfs
    · exact hne
  case nil =>
    intro pre _ _ fs hfs f
    rw [found.go] at hfs
    cases hfs
    simp
  case hidden =>
    intro pre raw node rest name hh ih hn hw fs hfs f
    -- a name that is UTF-8 is decoded to itself
    have hraw : name = raw := fromUtf8Lossy_eq (hn _ List.mem_cons_self).utf8
    rw [found_hidden hh] at hfs
    rw [ih (fun e he => hn e (List.mem_cons_of_mem _ he)) (fun e he => hw e (List.mem_cons_of_mem _ he)) fs hfs f]
    rw [hraw] at hh
    simp [hh]
  case file =>
    intro pre raw rest name hh info data ih hn hw fs hfs f
    have hraw : name = raw := fromUtf8Lossy_eq (hn _ List.mem_cons_self).utf8
    rw [found_file (by simpa [name] using hh)] at hfs
    obtain ⟨gs, hgs, rfl⟩ := Option.map_eq_some_iff.1 hfs
    have hlossy : fromUtf8Lossy raw = raw := hraw
    rw [hraw] at hh
    rw [List.mem_cons, ih (fun e he => hn e (List.mem_cons_of_mem _ he))
      (fun e he => hw e (List.mem_cons_of_mem _ he)) gs hgs f]
    simp only [List.exists_mem_cons_iff]
    refine or_congr ⟨?_, ?_⟩ Iff.rfl
    · rintro rfl
      exact ⟨by simpa using hh, [], .here _, by rw [urlOf_nil, List.append_nil, hlossy]⟩
    · rintro ⟨_, names, hat, hu⟩
      cases hat
      rw [hlossy]
      rw [urlOf_nil, List.append_nil] at hu
      cases f
      cases hu
      rfl
  case subdir =>
    intro pre raw rest name hh url entries ih1 ih2 hn hw fs hfs f
    have hraw : name = raw := fromUtf8Lossy_eq (hn _ List.mem_cons_self).utf8
    rw [found_dir (by simpa [name] using hh)] at hfs
    obtain ⟨as, has, hrest⟩ := Option.bind_eq_some_iff.1 hfs
    obtain ⟨gs, hgs, rfl⟩ := Option.map_eq_some_iff.1 hrest
    rw [hraw] at hh
    rw [List.mem_append, ih1 (hw _ List.mem_cons_self) as has f,
      ih2 (fun e he => hn e (List.mem_cons_of_mem _ he)) (fun e he => hw e (List.mem_cons_of_mem _ he)) gs hgs f]
    simp only [List.exists_mem_cons_iff]
    refine or_congr ⟨?_, ?_⟩ Iff.rfl
    · rintro ⟨names, hat, hu⟩
      exact ⟨by simpa using hh, names, hat, by rw [hu]; simp only [url, hraw]⟩
    · rintro ⟨_, names, hat, hu⟩
      exact ⟨names, hat, by rw [hu]; simp only [url, hraw]⟩
  case skip =>
    intro pre raw node rest name hh hf hd ih hn hw fs hfs f
    rw [found_skip (by simpa [name] using hh) hf hd] at hfs
    rw [ih (fun e he => hn e (List.mem_cons_of_mem _ he)) (fun e he => hw e (List.mem_cons_of_mem _ he)) fs hfs f]
    simp only [List.exists_mem_cons_iff]
    -- neither a file nor a directory: no components lead to a file through it
    constructor
    · exact .inr
    · rintro (⟨_, names, hat, _⟩ | h)
      · cases hat with
        | here => exact (hf _ _ rfl).elim
        | down => exact (hd _ rfl).elim
      · exact h

theorem At.unique {root n n' : Node} {names : List Str} (hw : WellNamed root) (h : At root names n)
    (h' : At root names n') : n = n' := by
  induction h with
  | here => cases h'; rfl
  | down hmem hv hat ih =>
    cases hw with
    | dir hnd hn hwe =>
      cases h' with
      | down hmem' hv' hat' =>
        cases List.inj_on_of_nodup_map hnd hmem hmem' rfl
        exact ih (hwe _ hmem) hat'

theorem At.names {root n : Node} {names : List Str} (hw : WellNamed root) (h : At root names n) :
    ∀ x ∈ names, IsName x := by
  induction h with
  | here => nofun
  | down hmem hv hat ih =>
    cases hw with
    | dir hnd hn hwe =>
      rintro x (_ | ⟨_, hx⟩)
      · exact hn _ hmem
      · exact ih (hwe _ hmem) x hx

theorem urlOf_cons_byte (n : Str) (names : List Str) : urlOf (n :: names) = 47 :: (n ++ urlOf names) := rfl

theorem takeWhile_component {n : Str} (hn : 47 ∉ n) (t : Str) : (n ++ 47 :: t).takeWhile (· != 47) = n := by
  rw [List.takeWhile_append_of_pos (by intro b hb; rw [bne_iff_ne]; rintro rfl; exact hn hb)]
  simp

theorem takeWhile_urlOf {n : Str} (hn : 47 ∉ n) (names : List Str) :
    (n ++ urlOf names).takeWhile (· != 47) = n := by
  cases names with
  | nil =>
    rw [urlOf_nil, List.takeWhile_append_of_pos (by intro b hb; rw [bne_iff_ne]; rintro rfl; exact hn hb)]
    simp
  | cons m t => exact takeWhile_component hn _

/-- A URL determines its components when none holds a separator. -/
theorem urlOf_inj : ∀ {a b : List Str}, (∀ x ∈ a, 47 ∉ x) → (∀ x ∈ b, 47 ∉ x) → urlOf a = urlOf b → a = b
  | [], [], _, _, _ => rfl
  | [], n :: b, _, _, h => by simp [urlOf_cons_byte] at h
  | n :: a, [], _, _, h => by simp [urlOf_cons_byte] at h
  | n :: a, m :: b, ha, hb, h => by
    rw [urlOf_cons_byte, urlOf_cons_byte, List.cons.injEq] at h
    have hnm : n = m := by
      have := congrArg (List.takeWhile (· != 47)) h.2
      rwa [takeWhile_urlOf (ha n List.mem_cons_self), takeWhile_urlOf (hb m List.mem_cons_self)] at this
    subst hnm
    rw [urlOf_inj (fun x hx => ha x (List.mem_cons_of_mem _ hx)) (fun x hx => hb x (List.mem_cons_of_mem _ hx))
      (List.append_cancel_left h.2)]

theorem urlOf_injective {a b : List Str} (ha : ∀ x ∈ a, IsName x) (hb : ∀ x ∈ b, IsName x) (h : urlOf a = urlOf b) :
    a = b :=
  urlOf_inj (fun x hx => (ha x hx).noSlash) (fun x hx => (hb x hx).noSlash) h

/-- Two files of one tree under one URL are the same file. -/
theorem found_unique {root : Node} {fs : List Found} (hw : WellNamed root) (hfs : found [] root = some fs)
    {f g : Found} (hf : f ∈ fs) (hg : g ∈ fs) (hu : f.url = g.url) : f = g := by
  obtain ⟨a, hat, ha⟩ := (mem_found [] root hw fs hfs f).1 hf
  obtain ⟨b, hbt, hb⟩ := (mem_found [] root hw fs hfs g).1 hg
  have hab : a = b := urlOf_injective (hat.names hw) (hbt.names hw) (by simpa [ha, hb] using hu)
  subst hab
  have := hat.unique hw hbt
  cases f; cases g
  simp_all

/-- A URL of a cache: a slash, and then no other. -/
def IsUrl (url : Str) : Prop := ∃ t, url = 47 :: t ∧ t.head? ≠ some 47

theorem found_isUrl {root : Node} {fs : List Found} (hw : WellNamed root) (hfs : found [] root = some fs)
    {f : Found} (hf : f ∈ fs) : IsUrl f.url := by
  obtain ⟨names, hat, hu⟩ := (mem_found [] root hw fs hfs f).1 hf
  have hn := hat.names hw
  cases names with
  | nil =>
    -- the root is a directory, so a file has at least one component
    cases hat
    rw [found] at hfs
    · cases hfs
    · nofun
  | cons n names =>
    refine ⟨n ++ urlOf names, by rw [hu]; rfl, fun h => ?_⟩
    have hname := hn n List.mem_cons_self
    cases n with
    | nil => exact hname.nonempty rfl
    | cons b n =>
      simp only [List.cons_append, List.head?_cons, Option.some.injEq] at h
      exact hname.noSlash (by rw [h]; exact List.mem_cons_self)

end BareServer
