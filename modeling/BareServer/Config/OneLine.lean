/-
What comes of one line stays on one line: the ports and the host names of an accepted config hold no
line feed.
-/
import BareServer.Config.Reading

namespace BareServer

open BareServer.Lib

/-! ## One line -/

theorem mem_lines {s l : Str} (h : l ∈ lines s) : 10 ∉ l := by
  have hpieces : ∀ l ∈ (s.splitOn 10).reverse, (10 : UInt8) ∉ l := fun l hl => (mem_splitOn (List.mem_reverse.1 hl)).2
  unfold lines at h
  cases hrev : (s.splitOn 10).reverse with
  | nil =>
    rw [hrev] at h
    cases h
  | cons last ended =>
    rw [hrev] at h hpieces
    simp only at h
    rcases List.mem_append.1 h with h | h
    · obtain ⟨raw, hraw, rfl⟩ := List.mem_map.1 h
      have hno := hpieces raw (List.mem_cons_of_mem _ (List.mem_reverse.1 hraw))
      cases hcr : (str "\r").isSuffixOf? raw with
      | none => exact hno
      | some l =>
        rw [Option.getD_some]
        rw [← List.isSuffixOf?_eq_some_iff_append_eq.1 hcr] at hno
        exact fun hm => hno (List.mem_append_left _ hm)
    · split at h
      · cases h
      · rw [List.mem_singleton.1 h]
        exact hpieces last List.mem_cons_self

theorem stripComment_subset (raw : Str) : stripComment raw ⊆ raw := by
  unfold stripComment
  refine List.Subset.trans (trim_subset _) ?_
  split
  · exact List.nil_subset _
  · split
    · exact List.take_subset _ _
    · exact List.Subset.refl _
  · exact List.Subset.refl _

theorem directive_subset {word line rest : Str} (h : directive word line = some rest) : rest ⊆ line := by
  rcases Option.or_eq_some_iff.1 h with h | ⟨-, h⟩
  all_goals
    rw [← List.isPrefixOf?_eq_some_iff_append_eq.1 h]
    exact List.subset_append_right _ _

/-- What a line says of a host or of a port is a part of it. -/
theorem lineOf_subset (raw : Str) : (∀ rest, lineOf raw = .site rest → rest ⊆ raw) ∧
    ∀ k v, lineOf raw = .assign k v → v ⊆ raw := by
  have hstrip := stripComment_subset raw
  unfold lineOf
  simp only
  split
  · exact ⟨nofun, nofun⟩
  split
  · exact ⟨nofun, nofun⟩
  cases hsite : directive (str "site") (stripComment raw) with
  | some rest =>
    refine ⟨?_, nofun⟩
    rintro _ ⟨⟩
    exact List.Subset.trans (directive_subset hsite) hstrip
  | none =>
    cases directive (str "redirect") (stripComment raw) with
    | some rest => exact ⟨nofun, nofun⟩
    | none =>
      cases hsplit : splitOnce (stripComment raw) (str "=") with
      | none => exact ⟨nofun, nofun⟩
      | some kv =>
        refine ⟨nofun, ?_⟩
        rintro _ _ ⟨⟩
        exact List.Subset.trans (trim_subset _) (List.Subset.trans (splitOnce_subset hsplit).2 hstrip)

theorem not_mem_lower {s : Str} (h : 10 ∉ s) : 10 ∉ lower s := by
  intro hm
  obtain ⟨b, hb, he⟩ := List.mem_map.1 hm
  unfold toLower at he
  split at he
  · rename_i hupper
    simp only [Bool.and_eq_true, decide_eq_true_eq] at hupper
    grind
  · exact h (he ▸ hb)

/-- The names of a block stand on its opening line. -/
theorem Block.names_oneLine {b : Block} (h : 10 ∉ b.header) : ∀ host ∈ b.names, 10 ∉ host := by
  intro host hhost
  obtain ⟨name, hname, rfl⟩ := List.mem_map.1 (List.mem_filter.1 hhost).1
  refine not_mem_lower fun hm => h (trim_subset _ ?_)
  have hpiece := (mem_splitOn hname).1 (trim_subset _ hm)
  cases hopen : (str "\x7b").isSuffixOf? (trim b.header) with
  | none =>
    rw [hopen] at hpiece
    cases hpiece
  | some names =>
    rw [hopen] at hpiece
    rw [← List.isSuffixOf?_eq_some_iff_append_eq.1 hopen]
    exact List.mem_append_left _ hpiece

/-! ## The file -/

/-- The blocks of a layout open on one line each. -/
structure Layout.OneLine (l : Layout) : Prop where
  blocks : ∀ b ∈ l.blocks, 10 ∉ b.header
  cur : ∀ b, l.cur = some b → 10 ∉ b.header

theorem Layout.OneLine.add {l : Layout} (hl : l.OneLine) {raw : Str} (hraw : 10 ∉ raw) : (l.add (lineOf raw)).OneLine := by
  obtain ⟨hblocks, hcur⟩ := hl
  have hsite := (lineOf_subset raw).1
  obtain ⟨top, blocks, cur⟩ := l
  generalize lineOf raw = line at hsite
  cases line with
  | blank => exact ⟨hblocks, hcur⟩
  | site rest =>
    refine ⟨hblocks, ?_⟩
    rintro _ ⟨⟩
    exact fun hm => hraw (hsite rest rfl hm)
  | close =>
    cases cur with
    | none => exact ⟨hblocks, hcur⟩
    | some b =>
      refine ⟨fun b' hb' => ?_, nofun⟩
      rcases List.mem_append.1 hb' with hb' | hb'
      · exact hblocks b' hb'
      · rw [List.mem_singleton.1 hb']
        exact hcur b rfl
  | _ =>
    cases cur with
    | none => exact ⟨hblocks, hcur⟩
    | some b =>
      refine ⟨hblocks, ?_⟩
      rintro _ ⟨⟩
      exact hcur b rfl

theorem layoutOf_oneLine {ls : List Str} (h : ∀ l ∈ ls, 10 ∉ l) : (layoutOf ls).OneLine := by
  have hfold : ∀ (ls : List Str) (l : Layout), l.OneLine → (∀ raw ∈ ls, 10 ∉ raw) →
      (ls.foldl (fun l raw => l.add (lineOf raw)) l).OneLine := by
    intro ls
    induction ls with
    | nil => exact fun _ hl _ => hl
    | cons raw ls ih =>
      exact fun l hl hls => ih _ (hl.add (hls raw List.mem_cons_self)) fun x hx => hls x (List.mem_cons_of_mem _ hx)
  exact hfold ls .empty ⟨nofun, nofun⟩ h

theorem parseListen_oneLine {n : Nat} {key eg v : Str} (hv : 10 ∉ v) {hp : Str × Str}
    (h : (parseListen n key eg v).toOption = some hp) : 10 ∉ hp.2 := by
  have h := TopSet.toOption_eq_some.1 h
  unfold parseListen at h
  split at h
  · cases h
  · rename_i hsplit
    split at h
    · cases h
    · cases h
      rw [(rsplitOnce_some hsplit).1] at hv
      exact fun hm => hv (List.mem_append_right _ (List.mem_cons_of_mem _ hm))

/-- Only the two listening addresses set a port, each from its own value. -/
theorem TopSet.apply_ports {k v : Str} {e : TopSet} (hv : 10 ∉ v) (h : TopSet.ofLine k v = some e) {st : ParseState}
    (hst : 10 ∉ st.port ∧ 10 ∉ st.httpPort) : 10 ∉ (e.apply st).port ∧ 10 ∉ (e.apply st).httpPort := by
  unfold TopSet.ofLine at h
  split at h
  · obtain ⟨hp, hlisten, rfl⟩ := Option.map_eq_some_iff.1 h
    exact ⟨parseListen_oneLine hv hlisten, hst.2⟩
  split at h
  · obtain ⟨hp, hlisten, rfl⟩ := Option.map_eq_some_iff.1 h
    exact ⟨hst.1, parseListen_oneLine hv hlisten⟩
  repeat' split at h
  all_goals
    first
    | (obtain ⟨x, -, rfl⟩ := Option.map_eq_some_iff.1 h; exact hst)
    | (cases h; exact hst)
    | (obtain ⟨f, -, h⟩ := Option.bind_eq_some_iff.1 h; obtain ⟨x, -, rfl⟩ := Option.map_eq_some_iff.1 h; exact hst)

theorem siteSetting_ports {st st' : ParseState} {site : PendingSite} {n : Nat} {k v : Str}
    (h : siteSetting st site n k v = .ok st') : st'.port = st.port ∧ st'.httpPort = st.httpPort := by
  unfold siteSetting at h
  simp only at h
  repeat' split at h
  all_goals
    first
    | (cases h; done)
    | cases h; exact ⟨rfl, rfl⟩
    | obtain ⟨b, -, rfl⟩ := map_ok h; exact ⟨rfl, rfl⟩

theorem parseLine_ports {st st' : ParseState} {n : Nat} {raw : Str} (hraw : 10 ∉ raw)
    (hst : 10 ∉ st.port ∧ 10 ∉ st.httpPort) (h : parseLine st n raw = .ok st') : 10 ∉ st'.port ∧ 10 ∉ st'.httpPort := by
  have hvalue := (lineOf_subset raw).2
  rw [parseLine_eq] at h
  generalize lineOf raw = line at h hvalue
  cases line with
  | blank =>
    cases h
    exact hst
  | malformed => cases h
  | close =>
    simp only [closeSite] at h
    split at h
    · cases h
    · cases h
      exact hst
  | site rest =>
    obtain ⟨-, p, rfl, -⟩ := openSite_ok h
    exact hst
  | redirect rest =>
    simp only [redirectLine] at h
    repeat' split at h
    all_goals cases h
    exact hst
  | assign k v =>
    have hv : 10 ∉ v := fun hm => hraw (hvalue k v rfl hm)
    simp only [assignLine] at h
    split at h
    · obtain ⟨hport, hhttp⟩ := siteSetting_ports h
      rw [hport, hhttp]
      exact hst
    · obtain ⟨e, he, rfl⟩ := TopSet.serverSetting_ok.1 h
      exact TopSet.apply_ports hv he hst

theorem parseLines_ports {ls : List Str} {st st' : ParseState} {n : Nat} (hls : ∀ l ∈ ls, 10 ∉ l)
    (hst : 10 ∉ st.port ∧ 10 ∉ st.httpPort) (h : parseLines st n ls = .ok st') : 10 ∉ st'.port ∧ 10 ∉ st'.httpPort := by
  induction ls generalizing st n with
  | nil =>
    cases h
    exact hst
  | cons raw ls ih =>
    unfold parseLines at h
    cases hl : parseLine st n raw with
    | error e => rw [hl] at h; cases h
    | ok st1 =>
      rw [hl] at h
      exact ih (fun l hl => hls l (List.mem_cons_of_mem _ hl)) (parseLine_ports (hls raw List.mem_cons_self) hst hl) h

/-- The ports and the host names of a config hold no line feed. -/
structure Config.OneLine (cfg : Config) : Prop where
  ports : 10 ∉ cfg.port ∧ 10 ∉ cfg.httpPort
  hosts : ∀ s ∈ cfg.sites, ∀ host ∈ s.hosts, 10 ∉ host

theorem parseConfig_oneLine {text : Str} {cfg : Config} (h : parseConfig text = .ok cfg) : cfg.OneLine := by
  constructor
  · unfold parseConfig at h
    cases hl : parseLines .init 1 (lines text) with
    | error e => rw [hl] at h; cases h
    | ok st =>
      have hports := parseLines_ports (fun _ => mem_lines) ⟨List.not_mem_nil, List.not_mem_nil⟩ hl
      rw [hl] at h
      simp only at h
      repeat' split at h
      all_goals try (cases h; done)
      cases h
      exact hports
  · intro s hs
    obtain ⟨b, hb, hblock⟩ := forall₂_mem_right (parseConfig_sites h) hs
    rw [hblock.hosts]
    exact Block.names_oneLine ((layoutOf_oneLine fun _ => mem_lines).blocks b hb)

end BareServer
