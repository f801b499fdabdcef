/-
The files of a document tree under the names that the system has for them, which need not be UTF-8.
A walk meets the same files, each under the text of its names; reading the tree in another order
meets them in another order.
-/
import BareServer.Cache.WalkSpec

namespace BareServer

open BareServer.Lib

/-! ## Trees of any names -/

/-- Induction over a directory's entries and, at each, those of the directory it may be. -/
theorem entries_induction {P : List (Bytes × Node) → Prop} (nil : P [])
    (cons : ∀ raw node rest, (∀ sub, node = .dir (some sub) → P sub) → P rest → P ((raw, node) :: rest)) :
    ∀ entries, P entries
  | [] => nil
  | (raw, node) :: rest =>
    cons raw node rest (fun sub _ => entries_induction nil cons sub) (entries_induction nil cons rest)
termination_by entries => sizeOf entries
decreasing_by
  · rename_i h
    subst h
    simp
    omega
  · simp

/-- A name that the system allows: any bytes but a separator and NUL. -/
structure IsOsName (n : Bytes) : Prop where
  nonempty : n ≠ []
  noSlash : 47 ∉ n
  noNul : 0 ∉ n

/-- A directory of such names, distinct in each directory of the tree. -/
inductive OsNamed : List (Bytes × Node) → Prop
  | dir {entries : List (Bytes × Node)} : (entries.map Prod.fst).Nodup → (∀ e ∈ entries, IsOsName e.1) →
      (∀ raw sub, (raw, .dir (some sub)) ∈ entries → OsNamed sub) → OsNamed entries

/-- The visible names `names` lead to a file. A walk judges a name by its text. -/
inductive FileAt : List (Bytes × Node) → List Bytes → FileMeta → Option Bytes → Prop
  | file {entries : List (Bytes × Node)} {raw : Bytes} {info : FileMeta} {data : Option Bytes} :
      (raw, .file info data) ∈ entries → isHidden (fromUtf8Lossy raw) = false → FileAt entries [raw] info data
  | dir {entries sub : List (Bytes × Node)} {raw : Bytes} {names : List Bytes} {info : FileMeta} {data : Option Bytes} :
      (raw, .dir (some sub)) ∈ entries → isHidden (fromUtf8Lossy raw) = false → FileAt sub names info data →
      FileAt entries (raw :: names) info data

/-- The key of a file: the texts of its names. -/
def keyOf (names : List Bytes) : Str := urlOf (names.map fromUtf8Lossy)

/-! ## The files by name -/

structure Located where
  names : List Bytes
  info : FileMeta
  data : Option Bytes

namespace Located

def under (raw : Bytes) (l : Located) : Located := { l with names := raw :: l.names }

/-- The file as a walk meets it below `pre`. -/
def found (pre : Str) (l : Located) : Found := ⟨pre ++ keyOf l.names, l.info, l.data⟩

end Located

/-- The visible regular files below a directory, in walk order; nothing when a visible directory
cannot be read. -/
def located : Node → Option (List Located)
  | .dir (some entries) => go entries
  | _ => none
where
  go : List (Bytes × Node) → Option (List Located)
  | [] => some []
  | (raw, node) :: rest =>
    if isHidden (fromUtf8Lossy raw) then go rest
    else
      match node with
      | .file info data => (go rest).map (⟨[raw], info, data⟩ :: ·)
      | .dir entries => (located (.dir entries)).bind fun ls => (go rest).map (ls.map (·.under raw) ++ ·)
      | _ => go rest

def locatedIn (raw : Bytes) (node : Node) : Option (List Located) :=
  if isHidden (fromUtf8Lossy raw) then some []
  else
    match node with
    | .file info data => some [⟨[raw], info, data⟩]
    | .dir entries => (located (.dir entries)).map (·.map (·.under raw))
    | _ => some []

theorem located_cons (raw : Bytes) (node : Node) (rest : List (Bytes × Node)) :
    located.go ((raw, node) :: rest) =
      (locatedIn raw node).bind fun ls => (located.go rest).map (ls ++ ·) := by
  cases node with
  | file info data =>
    simp only [located.go, locatedIn]
    split
    · simp
    · rfl
  | dir entries =>
    simp only [located.go, locatedIn]
    split
    · simp
    · cases located (.dir entries) <;> rfl
  | _ => simp [located.go, locatedIn]

theorem located_append : ∀ (a b : List (Bytes × Node)), located.go (a ++ b) =
    (located.go a).bind fun ls => (located.go b).map (ls ++ ·)
  | [], b => by simp [located.go]
  | (raw, node) :: a, b => by
    rw [List.cons_append, located_cons, located_cons, located_append a b]
    cases locatedIn raw node with
    | none => rfl
    | some ls => cases located.go a <;> cases located.go b <;> simp

theorem locatedIn_cases {raw : Bytes} {node : Node} {ls : List Located} (h : locatedIn raw node = some ls) :
    (ls = [] ∧ (isHidden (fromUtf8Lossy raw) = true ∨
      (∀ info data, node ≠ .file info data) ∧ ∀ entries, node ≠ .dir entries)) ∨
    (∃ info data, isHidden (fromUtf8Lossy raw) = false ∧ node = .file info data ∧ ls = [⟨[raw], info, data⟩]) ∨
    ∃ sub ls', isHidden (fromUtf8Lossy raw) = false ∧ node = .dir (some sub) ∧ located.go sub = some ls' ∧
      ls = ls'.map (·.under raw) := by
  unfold locatedIn at h
  split at h
  · rename_i hh
    cases h
    exact .inl ⟨rfl, .inl hh⟩
  · rename_i hh
    have hv : isHidden (fromUtf8Lossy raw) = false := by simpa using hh
    split at h
    · cases h
      exact .inr (.inl ⟨_, _, hv, rfl, rfl⟩)
    · rename_i entries
      obtain ⟨ls', hlocated, rfl⟩ := Option.map_eq_some_iff.1 h
      cases entries with
      | none =>
        rw [located] at hlocated
        · cases hlocated
        · simp
      | some sub =>
        rw [located] at hlocated
        exact .inr (.inr ⟨sub, ls', hv, rfl, hlocated, rfl⟩)
    · rename_i hfile hdir
      cases h
      exact .inl ⟨rfl, .inr ⟨hfile, hdir⟩⟩

theorem locatedIn_file {raw : Bytes} (hv : isHidden (fromUtf8Lossy raw) = false) (info : FileMeta) (data : Option Bytes) :
    locatedIn raw (.file info data) = some [⟨[raw], info, data⟩] := by
  rw [locatedIn, hv, if_neg Bool.false_ne_true]

theorem locatedIn_dir {raw : Bytes} (hv : isHidden (fromUtf8Lossy raw) = false) (sub : List (Bytes × Node)) :
    locatedIn raw (.dir (some sub)) = (located.go sub).map (·.map (·.under raw)) := by
  rw [locatedIn, hv, if_neg Bool.false_ne_true, located]

theorem names_locatedIn {raw : Bytes} {node : Node} {ls : List Located} (h : locatedIn raw node = some ls) :
    ∀ l ∈ ls, ∃ names, l.names = raw :: names := by
  intro l hl
  rcases locatedIn_cases h with ⟨rfl, -⟩ | ⟨info, data, -, -, rfl⟩ | ⟨sub, ls', -, -, -, rfl⟩
  · cases hl
  · cases List.mem_singleton.1 hl
    exact ⟨[], rfl⟩
  · obtain ⟨l', -, rfl⟩ := List.mem_map.1 hl
    exact ⟨l'.names, rfl⟩

/-! ## The walk's files -/

theorem Located.found_under (pre : Str) (raw : Bytes) (l : Located) :
    (l.under raw).found pre = l.found (pre ++ str "/" ++ fromUtf8Lossy raw) := by
  simp only [Located.found, Located.under, keyOf, List.map_cons, urlOf_cons, List.append_assoc]

theorem found_go_cons (pre : Str) (raw : Bytes) (node : Node) (rest : List (Bytes × Node))
    (hdir : ∀ entries, node = .dir entries → found (pre ++ str "/" ++ fromUtf8Lossy raw) node =
      (located node).map (·.map (Located.found (pre ++ str "/" ++ fromUtf8Lossy raw)))) :
    found.go pre ((raw, node) :: rest) =
      ((locatedIn raw node).map (·.map (Located.found pre))).bind fun fs => (found.go pre rest).map (fs ++ ·) := by
  unfold locatedIn
  split
  · rename_i hh
    rw [found_hidden hh]
    simp
  · rename_i hh
    have hv : isHidden (fromUtf8Lossy raw) = false := by simpa using hh
    cases node with
    | file info data =>
      rw [found_file hv]
      simp [Located.found, keyOf, urlOf]
    | dir entries =>
      rw [found_dir hv, hdir entries rfl]
      dsimp only
      cases located (.dir entries) with
      | none => rfl
      | some sub => simp [Located.found_under, Function.comp_def]
    | _ =>
      rw [found_skip hv (by simp) (by simp)]
      simp

/-- A walk meets each file under the text of its names. -/
theorem found_located (entries : List (Bytes × Node)) :
    ∀ pre, found pre (.dir (some entries)) = (located (.dir (some entries))).map (·.map (Located.found pre)) := by
  refine entries_induction (P := fun entries => ∀ pre,
    found pre (.dir (some entries)) = (located (.dir (some entries))).map (·.map (Located.found pre))) ?_ ?_ entries
  · intro pre
    rw [found, located, found.go, located.go]
    rfl
  · intro raw node rest hsub hrest pre
    simp only [found, located] at hrest ⊢
    rw [located_cons, found_go_cons, hrest]
    · cases locatedIn raw node with
      | none => rfl
      | some ls => cases located.go rest <;> simp
    · rintro (_ | sub) rfl
      · simp [found, located]
      · exact hsub sub rfl _

theorem not_fileAt_nil {names : List Bytes} {info : FileMeta} {data : Option Bytes} : ¬ FileAt [] names info data := by
  rintro (⟨⟨⟩⟩ | ⟨⟨⟩⟩)

theorem fileAt_cons {raw : Bytes} {node : Node} {rest : List (Bytes × Node)} {names : List Bytes} {info : FileMeta}
    {data : Option Bytes} : FileAt ((raw, node) :: rest) names info data ↔
      FileAt [(raw, node)] names info data ∨ FileAt rest names info data := by
  constructor
  · rintro (⟨hmem, hv⟩ | ⟨hmem, hv, hat⟩)
    · rcases List.mem_cons.1 hmem with h | h
      · exact .inl (.file (List.mem_singleton.2 h) hv)
      · exact .inr (.file h hv)
    · rcases List.mem_cons.1 hmem with h | h
      · exact .inl (.dir (List.mem_singleton.2 h) hv hat)
      · exact .inr (.dir h hv hat)
  · rintro (h | h)
    · cases h with
      | file hmem hv => exact .file (List.mem_cons.2 (.inl (List.mem_singleton.1 hmem))) hv
      | dir hmem hv hat => exact .dir (List.mem_cons.2 (.inl (List.mem_singleton.1 hmem))) hv hat
    · cases h with
      | file hmem hv => exact .file (List.mem_cons_of_mem _ hmem) hv
      | dir hmem hv hat => exact .dir (List.mem_cons_of_mem _ hmem) hv hat

theorem mem_locatedIn {raw : Bytes} {node : Node} {ls : List Located} (h : locatedIn raw node = some ls)
    (hsub : ∀ sub, node = .dir (some sub) → ∀ ls, located.go sub = some ls → ∀ l, l ∈ ls ↔ FileAt sub l.names l.info l.data)
    (l : Located) : l ∈ ls ↔ FileAt [(raw, node)] l.names l.info l.data := by
  obtain ⟨names, info, data⟩ := l
  rcases locatedIn_cases h with ⟨rfl, hnone⟩ | ⟨info', data', hv, rfl, rfl⟩ | ⟨sub, ls', hv, rfl, hlocated, rfl⟩
  · refine iff_of_false List.not_mem_nil fun hat => ?_
    rcases hnone with hh | ⟨hfile, hdir⟩
    · cases hat with
      | file hmem hv | dir hmem hv _ =>
        cases List.mem_singleton.1 hmem
        rw [hh] at hv
        cases hv
    · cases hat with
      | file hmem _ =>
        cases List.mem_singleton.1 hmem
        exact hfile _ _ rfl
      | dir hmem _ _ =>
        cases List.mem_singleton.1 hmem
        exact hdir _ rfl
  · rw [List.mem_singleton]
    constructor
    · rintro ⟨⟩
      exact .file (List.mem_singleton.2 rfl) hv
    · intro hat
      cases hat with
      | file hmem _ =>
        cases List.mem_singleton.1 hmem
        rfl
      | dir hmem _ _ => cases List.mem_singleton.1 hmem
  · have hin := hsub sub rfl ls' hlocated
    rw [List.mem_map]
    constructor
    · rintro ⟨l, hl, ⟨⟩⟩
      exact .dir (List.mem_singleton.2 rfl) hv ((hin l).1 hl)
    · intro hat
      cases hat with
      | file hmem _ => cases List.mem_singleton.1 hmem
      | dir hmem _ hat =>
        cases List.mem_singleton.1 hmem
        exact ⟨⟨_, info, data⟩, (hin _).2 hat, rfl⟩

/-- The files of the list are those that the tree's visible names lead to. -/
theorem mem_located (entries : List (Bytes × Node)) :
    ∀ ls, located.go entries = some ls → ∀ l, l ∈ ls ↔ FileAt entries l.names l.info l.data := by
  refine entries_induction (P := fun entries => ∀ ls, located.go entries = some ls →
    ∀ l, l ∈ ls ↔ FileAt entries l.names l.info l.data) ?_ ?_ entries
  · intro ls h l
    rw [located.go] at h
    cases h
    exact iff_of_false List.not_mem_nil not_fileAt_nil
  · intro raw node rest hsub hrest ls h l
    rw [located_cons] at h
    obtain ⟨ls1, hin, hmap⟩ := Option.bind_eq_some_iff.1 h
    obtain ⟨ls2, hout, rfl⟩ := Option.map_eq_some_iff.1 hmap
    rw [List.mem_append, mem_locatedIn hin hsub, hrest ls2 hout, ← fileAt_cons]

/-! ## Names -/

theorem FileAt.cons_names {entries : List (Bytes × Node)} {names : List Bytes} {info : FileMeta} {data : Option Bytes}
    (h : FileAt entries names info data) : ∃ e ∈ entries, ∃ rest, names = e.1 :: rest := by
  cases h with
  | file hmem => exact ⟨_, hmem, [], rfl⟩
  | dir hmem => exact ⟨_, hmem, _, rfl⟩

theorem FileAt.osNames {entries : List (Bytes × Node)} {names : List Bytes} {info : FileMeta} {data : Option Bytes}
    (h : FileAt entries names info data) (hn : OsNamed entries) : ∀ n ∈ names, IsOsName n := by
  induction h with
  | file hmem =>
    obtain ⟨-, hos, -⟩ := hn
    intro n hmem'
    cases List.mem_singleton.1 hmem'
    exact hos _ hmem
  | dir hmem _ _ ih =>
    obtain ⟨-, hos, hsub⟩ := hn
    rintro n (_ | ⟨_, hmem'⟩)
    · exact hos _ hmem
    · exact ih (hsub _ _ hmem) n hmem'

theorem OsNamed.tail {e : Bytes × Node} {rest : List (Bytes × Node)} (h : OsNamed (e :: rest)) : OsNamed rest := by
  obtain ⟨hnd, hos, hsub⟩ := h
  exact ⟨(List.nodup_cons.1 hnd).2, fun e' he' => hos e' (List.mem_cons_of_mem _ he'),
    fun raw sub hmem => hsub raw sub (List.mem_cons_of_mem _ hmem)⟩

theorem nodup_located (entries : List (Bytes × Node)) :
    OsNamed entries → ∀ ls, located.go entries = some ls → (ls.map Located.names).Nodup := by
  refine entries_induction (P := fun entries => OsNamed entries → ∀ ls, located.go entries = some ls →
    (ls.map Located.names).Nodup) ?_ ?_ entries
  · intro _ ls h
    rw [located.go] at h
    cases h
    exact List.nodup_nil
  · intro raw node rest hsub hrest hn ls h
    rw [located_cons] at h
    obtain ⟨ls1, hin, hmap⟩ := Option.bind_eq_some_iff.1 h
    obtain ⟨ls2, hout, rfl⟩ := Option.map_eq_some_iff.1 hmap
    rw [List.map_append, List.nodup_append]
    refine ⟨?_, hrest hn.tail ls2 hout, ?_⟩
    · rcases locatedIn_cases hin with ⟨rfl, -⟩ | ⟨info, data, -, -, rfl⟩ | ⟨sub, ls', -, rfl, hlocated, rfl⟩
      · exact List.nodup_nil
      · exact List.nodup_singleton _
      · obtain ⟨-, -, hdirs⟩ := hn
        have hnames := hsub sub rfl (hdirs raw sub List.mem_cons_self) ls' hlocated
        rw [List.map_map, show Located.names ∘ Located.under raw = List.cons raw ∘ Located.names from rfl, ← List.map_map]
        exact hnames.map List.cons_injective
    · -- the files of another entry begin with another name
      rintro a ha b hb rfl
      obtain ⟨l, hl, hla⟩ := List.mem_map.1 ha
      obtain ⟨l', hl', hlb⟩ := List.mem_map.1 hb
      obtain ⟨names, hnames⟩ := names_locatedIn hin l hl
      obtain ⟨e, he, rest', hrest'⟩ := ((mem_located rest ls2 hout l').1 hl').cons_names
      have hraw : raw = e.1 := by
        have heq := hla.trans hlb.symm
        rw [hnames, hrest', List.cons.injEq] at heq
        exact heq.1
      obtain ⟨hnd, -, -⟩ := hn
      rw [List.map_cons, List.nodup_cons] at hnd
      exact hnd.1 (List.mem_map.2 ⟨e, he, hraw.symm⟩)

/-! ## Other orders -/

/-- The same tree, read in another order: the entries of any directory in it may come in any order. -/
inductive Reordered : List (Bytes × Node) → List (Bytes × Node) → Prop
  | perm {a b : List (Bytes × Node)} : a.Perm b → Reordered a b
  | within {pre post sub sub' : List (Bytes × Node)} {raw : Bytes} : Reordered sub sub' →
      Reordered (pre ++ (raw, .dir (some sub)) :: post) (pre ++ (raw, .dir (some sub')) :: post)
  | trans {a b c : List (Bytes × Node)} : Reordered a b → Reordered b c → Reordered a c

theorem Reordered.refl (a : List (Bytes × Node)) : Reordered a a := .perm (.refl a)

theorem Reordered.cons (e : Bytes × Node) {a b : List (Bytes × Node)} (h : Reordered a b) : Reordered (e :: a) (e :: b) := by
  induction h with
  | perm hp => exact .perm (hp.cons e)
  | @within pre post sub sub' raw hsub => exact @Reordered.within (e :: pre) post sub sub' raw hsub
  | trans _ _ ih1 ih2 => exact ih1.trans ih2

/-- Where a walk meets the files of `a`, it meets those of `b`, and they are the same. -/
def SameFiles (a b : List (Bytes × Node)) : Prop :=
  ∀ ls, located.go a = some ls → ∃ ls', located.go b = some ls' ∧ ls.Perm ls'

theorem SameFiles.trans {a b c : List (Bytes × Node)} (hab : SameFiles a b) (hbc : SameFiles b c) : SameFiles a c := by
  intro ls hls
  obtain ⟨ls', hls', hp⟩ := hab ls hls
  obtain ⟨ls'', hls'', hp'⟩ := hbc ls' hls'
  exact ⟨ls'', hls'', hp.trans hp'⟩

theorem located_perm {a b : List (Bytes × Node)} (h : a.Perm b) : SameFiles a b := by
  induction h with
  | nil => exact fun ls hls => ⟨ls, hls, .refl _⟩
  | cons e _ ih =>
    intro ls hls
    rw [located_cons] at hls
    obtain ⟨ls1, hin, hmap⟩ := Option.bind_eq_some_iff.1 hls
    obtain ⟨ls2, hout, rfl⟩ := Option.map_eq_some_iff.1 hmap
    obtain ⟨ls2', hout', hp⟩ := ih ls2 hout
    refine ⟨ls1 ++ ls2', ?_, hp.append_left ls1⟩
    rw [located_cons, hin, hout']
    rfl
  | swap e e' rest =>
    intro ls hls
    rw [located_cons, located_cons] at hls
    obtain ⟨ls1, hin, hmap⟩ := Option.bind_eq_some_iff.1 hls
    obtain ⟨ls2, hbind, rfl⟩ := Option.map_eq_some_iff.1 hmap
    obtain ⟨ls3, hin', hmap'⟩ := Option.bind_eq_some_iff.1 hbind
    obtain ⟨ls4, hout, rfl⟩ := Option.map_eq_some_iff.1 hmap'
    refine ⟨ls3 ++ (ls1 ++ ls4), ?_, ?_⟩
    · rw [located_cons, located_cons, hin, hin', hout]
      rfl
    · rw [← List.append_assoc, ← List.append_assoc]
      exact List.perm_append_comm.append_right ls4
  | trans _ _ ih1 ih2 => exact ih1.trans ih2

/-- A walk in another order meets the same files. -/
theorem Reordered.located {a b : List (Bytes × Node)} (h : Reordered a b) : SameFiles a b := by
  induction h with
  | perm hp => exact located_perm hp
  | @within pre post sub sub' raw _ ih =>
    intro ls hls
    rw [located_append, located_cons] at hls
    obtain ⟨ls1, hpre, hmap⟩ := Option.bind_eq_some_iff.1 hls
    obtain ⟨ls2, hbind, rfl⟩ := Option.map_eq_some_iff.1 hmap
    obtain ⟨ls3, hin, hmap'⟩ := Option.bind_eq_some_iff.1 hbind
    obtain ⟨ls4, hpost, rfl⟩ := Option.map_eq_some_iff.1 hmap'
    have hin' : ∃ ls3', locatedIn raw (.dir (some sub')) = some ls3' ∧ ls3.Perm ls3' := by
      rcases locatedIn_cases hin with ⟨rfl, hh | ⟨-, hdir⟩⟩ | ⟨_, _, _, hfile, _⟩ | ⟨_, found, hv, heq, hfound, rfl⟩
      · exact ⟨[], by rw [locatedIn, if_pos hh], .refl _⟩
      · exact (hdir _ rfl).elim
      · cases hfile
      · cases heq
        obtain ⟨found', hfound', hp⟩ := ih found hfound
        exact ⟨_, by rw [locatedIn_dir hv, hfound', Option.map_some], hp.map _⟩
    obtain ⟨ls3', hin', hp⟩ := hin'
    refine ⟨ls1 ++ (ls3' ++ ls4), ?_, (hp.append_right ls4).append_left ls1⟩
    rw [located_append, located_cons, hpre, hin', hpost]
    rfl
  | trans _ _ ih1 ih2 => exact ih1.trans ih2

/-- Some order of an entry comes to a given file of it last. -/
theorem locatedIn_last {raw : Bytes} {node : Node} {ls : List Located} (h : locatedIn raw node = some ls)
    (hsub : ∀ sub, node = .dir (some sub) → ∀ ls, located.go sub = some ls → ∀ l ∈ ls,
      ∃ sub' ls', Reordered sub sub' ∧ located.go sub' = some (ls' ++ [l])) {l : Located} (hl : l ∈ ls)
    (rest : List (Bytes × Node)) : ∃ node' ls', Reordered ((raw, node) :: rest) ((raw, node') :: rest) ∧
      locatedIn raw node' = some (ls' ++ [l]) := by
  rcases locatedIn_cases h with ⟨rfl, -⟩ | ⟨info, data, hv, rfl, rfl⟩ | ⟨sub, found, hv, rfl, hfound, rfl⟩
  · cases hl
  · cases List.mem_singleton.1 hl
    exact ⟨_, [], .refl _, locatedIn_file hv info data⟩
  · obtain ⟨l', hl', rfl⟩ := List.mem_map.1 hl
    obtain ⟨sub', ls', hre, hlast⟩ := hsub sub rfl found hfound l' hl'
    refine ⟨.dir (some sub'), ls'.map (·.under raw), @Reordered.within [] _ _ _ _ hre, ?_⟩
    rw [locatedIn_dir hv, hlast, Option.map_some, List.map_append]
    rfl

/-- Some order comes to a given file last. -/
theorem located_last (entries : List (Bytes × Node)) : ∀ ls, located.go entries = some ls → ∀ l ∈ ls,
    ∃ entries' ls', Reordered entries entries' ∧ located.go entries' = some (ls' ++ [l]) := by
  refine entries_induction (P := fun entries => ∀ ls, located.go entries = some ls → ∀ l ∈ ls,
    ∃ entries' ls', Reordered entries entries' ∧ located.go entries' = some (ls' ++ [l])) ?_ ?_ entries
  · intro ls h l hl
    rw [located.go] at h
    cases h
    cases hl
  · intro raw node rest hsub hrest ls h l hl
    rw [located_cons] at h
    obtain ⟨ls1, hin, hmap⟩ := Option.bind_eq_some_iff.1 h
    obtain ⟨ls2, hout, rfl⟩ := Option.map_eq_some_iff.1 hmap
    rcases List.mem_append.1 hl with hl | hl
    · -- its entry comes last, and it last in that
      obtain ⟨node', ls', hre, hin'⟩ := locatedIn_last hin hsub hl rest
      refine ⟨rest ++ [(raw, node')], ls2 ++ ls', hre.trans (.perm (List.perm_append_singleton _ _).symm), ?_⟩
      rw [located_append, hout, located_cons, hin', located.go]
      simp
    · obtain ⟨rest', ls', hre, hout'⟩ := hrest ls2 hout l hl
      refine ⟨(raw, node) :: rest', ls1 ++ ls', hre.cons _, ?_⟩
      rw [located_cons, hin, hout']
      simp

end BareServer
