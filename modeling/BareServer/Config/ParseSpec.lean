/-
What an accepted config guarantees of the text it puts into responses: no `csp` value and no
redirect target holds a control byte, and expanding a target by clean text gives clean text.
-/
import BareServer.Config.Parse

namespace BareServer

open BareServer.Lib

/-! ## Redirect targets -/

/-- No target of the rules holds a control byte. -/
structure Redirects.Clean (r : Redirects) : Prop where
  exact : ∀ p t, r.exact.lookup p = some t → Lib.Clean t
  prefixes : ∀ pt ∈ r.prefixes, Lib.Clean pt.2
  all : ∀ t, r.all = some t → Lib.Clean t

namespace Redirects

theorem clean_default : Redirects.Clean default := ⟨nofun, nofun, nofun⟩

theorem checkTarget_clean {target : Str} (h : checkTarget target = .ok ()) : Lib.Clean target := by
  unfold checkTarget at h
  split at h
  · cases h
  · rename_i hc
    exact clean_iff.2 (by simpa using hc)

theorem push_clean {r r' : Redirects} {pattern target : Str} (hr : r.Clean) (h : r.push pattern target = .ok r') :
    r'.Clean := by
  unfold push at h
  cases hc : checkTarget target with
  | error e => rw [hc] at h; cases h
  | ok u =>
    have ht := checkTarget_clean hc
    rw [hc] at h
    simp only [pushAll, pushPrefix, pushExact] at h
    -- the three kinds of rule, each after its own rejections
    repeat' split at h
    all_goals try cases h
    · exact ⟨hr.exact, hr.prefixes, fun t ht' => by cases ht'; exact ht⟩
    · refine ⟨hr.exact, fun pt hpt => ?_, hr.all⟩
      rcases List.mem_append.1 hpt with hpt | hpt
      · exact hr.prefixes pt hpt
      · rw [List.mem_singleton.1 hpt]; exact ht
    · refine ⟨fun p t hp => ?_, hr.prefixes, hr.all⟩
      rw [Map.lookup_insert'] at hp
      split at hp
      · cases hp; exact ht
      · exact hr.exact p t hp

theorem finish_clean {r : Redirects} (hr : r.Clean) : r.finish.Clean :=
  ⟨hr.exact, fun pt hpt => hr.prefixes pt ((List.perm_insertionSort _ _).mem_iff.1 hpt), hr.all⟩

theorem expandFrom_clean {path cap : Str} (hp : Lib.Clean path) (hc : Lib.Clean cap) :
    ∀ {t : Str}, Lib.Clean t → Lib.Clean (expandFrom path cap t) := by
  intro t
  induction t using expandFrom.induct with
  | case1 => intro _; exact clean_nil
  | case2 t ih => intro h; exact clean_append.2 ⟨hp, ih (clean_cons.1 (clean_cons.1 h).2).2⟩
  | case3 t ih => intro h; exact clean_append.2 ⟨hc, ih (clean_cons.1 (clean_cons.1 h).2).2⟩
  | case4 t ih => intro h; exact clean_cons.2 ⟨rfl, ih (clean_cons.1 (clean_cons.1 h).2).2⟩
  | case5 c t h1 h2 h3 ih =>
    intro h
    rw [expandFrom]
    · exact clean_cons.2 ⟨(clean_cons.1 h).1, ih (clean_cons.1 h).2⟩
    · exact h1
    · exact h2
    · exact h3

theorem expand_clean {template path cap : Str} (ht : Lib.Clean template) (hp : Lib.Clean path)
    (hc : Lib.Clean cap) : Lib.Clean (expand template path cap) := by
  unfold expand
  split
  · exact ht
  · exact expandFrom_clean hp hc ht

theorem resolvePrefix_clean {path : Str} (hp : Lib.Clean path) : ∀ {ps : List (Str × Str)} {dest : Str},
    (∀ pt ∈ ps, Lib.Clean pt.2) → resolvePrefix path ps = some dest → Lib.Clean dest
  | [], _, _, h => nomatch h
  | (p, t) :: ps, dest, hps, h => by
    unfold resolvePrefix at h
    cases hpre : p.isPrefixOf? path with
    | some cap =>
      rw [hpre] at h
      cases h
      have hsub : cap ⊆ path := by
        have := List.isPrefixOf?_eq_some_iff_append_eq.1 hpre
        rw [← this]
        exact List.subset_append_right _ _
      exact expand_clean (hps _ List.mem_cons_self) hp (hp.subset hsub)
    | none =>
      rw [hpre] at h
      exact resolvePrefix_clean hp (fun pt hpt => hps pt (List.mem_cons_of_mem _ hpt)) h

/-- A clean path is sent to a clean target. -/
theorem resolve_clean {r : Redirects} (hr : r.Clean) {path dest : Str} (hp : Lib.Clean path)
    (h : r.resolve path = some dest) : Lib.Clean dest := by
  unfold resolve at h
  cases he : r.exact.lookup path with
  | some t =>
    rw [he] at h
    cases h
    exact expand_clean (hr.exact _ _ he) hp clean_nil
  | none =>
    rw [he] at h
    simp only at h
    cases hpre : resolvePrefix path r.prefixes with
    | some d =>
      rw [hpre] at h
      cases h
      exact resolvePrefix_clean hp hr.prefixes hpre
    | none =>
      rw [hpre] at h
      obtain ⟨t, ht, rfl⟩ := Option.map_eq_some_iff.1 h
      exact expand_clean (hr.all t ht) hp hp

end Redirects

/-! ## Settings -/

theorem map_ok {ε α β : Type} {x : Except ε α} {f : α → β} {b : β} (h : x.map f = .ok b) :
    ∃ a, x = .ok a ∧ f a = b := by
  cases x with
  | error e => cases h
  | ok a => exact ⟨a, rfl, by cases h; rfl⟩

/-- A computed check of a result tells that there is one. -/
theorem ok_of_any {ε α : Type} {x : Except ε α} {P : α → Bool} (h : x.toOption.any P = true) :
    ∃ a, x = .ok a ∧ P a = true := by
  cases x with
  | error e => cases h
  | ok a => exact ⟨a, rfl, h⟩

/-- Case analysis on a conditional that gave a result. -/
theorem ite_cases {α : Type} {c : Prop} [Decidable c] {x y z : α} {P : Prop} (h : (if c then x else y) = z)
    (hx : x = z → P) (hy : y = z → P) : P := by
  split at h
  · exact hx h
  · exact hy h

theorem parseHeaderValue_clean {k v x : Str} (h : parseHeaderValue k v = .ok x) : Clean x := by
  unfold parseHeaderValue at h
  simp only at h
  split at h
  · cases h
  · rename_i hc
    cases h
    exact clean_iff.2 (by simpa using hc)

theorem applyShared_clean {t t' : Tuning} {h h' : HeaderConfig} {k v : Str} (hc : Clean h.csp)
    (ha : applyShared t h k v = .ok (some (t', h'))) : Clean h'.csp := by
  unfold applyShared at ha
  -- twelve keys leave `csp` alone
  iterate 12
    refine ite_cases ha (fun ha => ?_) fun ha => ?_
    · obtain ⟨x, -, he⟩ := map_ok ha
      cases he
      exact hc
  refine ite_cases ha (fun ha => ?_) fun ha => nomatch ha
  obtain ⟨x, hx, he⟩ := map_ok ha
  cases he
  exact parseHeaderValue_clean hx

theorem applyOverrides_clean : ∀ (os : List (Nat × Str × Str)) {t t' : Tuning} {h h' : HeaderConfig}, Clean h.csp →
    applyOverrides t h os = .ok (t', h') → Clean h'.csp
  | [], _, _, _, _, hc, ha => by cases ha; exact hc
  | (n, k, v) :: os, t, t', h, h', hc, ha => by
    unfold applyOverrides at ha
    cases hs : applyShared t h k v with
    | error e => rw [hs] at ha; cases ha
    | ok r =>
      rw [hs] at ha
      cases r with
      | none => exact applyOverrides_clean os hc ha
      | some th => exact applyOverrides_clean os (applyShared_clean hc hs) ha

/-! ## The line loop -/

/-- Everything read so far is clean. -/
structure ParseState.Clean (st : ParseState) : Prop where
  csp : Lib.Clean st.headers.csp
  pending : ∀ p ∈ st.pending, p.redirects.Clean
  cur : ∀ p, st.cur = some p → p.redirects.Clean
  ports : 58 ∉ st.port ∧ 58 ∉ st.httpPort

theorem clean_init : ParseState.init.Clean := ⟨clean_nil, nofun, nofun, nofun, nofun⟩

section
variable {st st' : ParseState} {n : Nat} {k v : Str}

theorem openSite_clean (hc : st.Clean) (h : openSite st n v = .ok st') : st'.Clean := by
  unfold openSite at h
  simp only at h
  repeat' split at h
  all_goals try cases h
  exact ⟨hc.csp, hc.pending, fun p hp => by cases hp; exact Redirects.clean_default, hc.ports⟩

theorem redirectLine_clean (hc : st.Clean) (h : redirectLine st n v = .ok st') : st'.Clean := by
  unfold redirectLine at h
  simp only at h
  repeat' split at h
  all_goals try cases h
  rename_i site hcur _ _ _ _ _ _ r hpush
  exact ⟨hc.csp, hc.pending, fun p hp => by cases hp; exact Redirects.push_clean (hc.cur site hcur) hpush, hc.ports⟩

theorem siteSetting_clean {site : PendingSite} (hc : st.Clean) (hs : site.redirects.Clean)
    (h : siteSetting st site n k v = .ok st') : st'.Clean := by
  have hput : ∀ s : PendingSite, s.redirects = site.redirects → ParseState.Clean { st with cur := some s } :=
    fun s he => ⟨hc.csp, hc.pending, fun p hp => by cases hp; rw [he]; exact hs, hc.ports⟩
  unfold siteSetting at h
  simp only at h
  repeat' split at h
  all_goals
    first
    | (cases h; done)
    | cases h; exact hput _ rfl
    | obtain ⟨b, -, rfl⟩ := map_ok h; exact hput _ rfl

/-- A port is what stands after the last colon. -/
theorem parseListen_port {eg : Str} {hp : Str × Str} (h : parseListen n k eg v = .ok hp) : 58 ∉ hp.2 := by
  unfold parseListen at h
  split at h
  · cases h
  · rename_i hsplit
    split at h
    · cases h
    · cases h
      exact (rsplitOnce_some hsplit).2

theorem serverSetting_clean (hc : st.Clean) (h : serverSetting st n k v = .ok st') : st'.Clean := by
  unfold serverSetting at h
  simp only at h
  split at h
  · obtain ⟨hp, hlisten, rfl⟩ := map_ok h
    exact ⟨hc.csp, hc.pending, hc.cur, parseListen_port hlisten, hc.ports.2⟩
  split at h
  · obtain ⟨hp, hlisten, rfl⟩ := map_ok h
    exact ⟨hc.csp, hc.pending, hc.cur, hc.ports.1, parseListen_port hlisten⟩
  repeat' split at h
  all_goals
    first
    | (cases h; done)
    | cases h; exact ⟨hc.csp, hc.pending, hc.cur, hc.ports⟩
    | obtain ⟨b, -, rfl⟩ := map_ok h; exact ⟨hc.csp, hc.pending, hc.cur, hc.ports⟩
    | (rename_i hshared
       cases h
       exact ⟨applyShared_clean hc.csp hshared, hc.pending, hc.cur, hc.ports⟩)

theorem parseLine_clean (hc : st.Clean) (h : parseLine st n v = .ok st') : st'.Clean := by
  unfold parseLine at h
  simp only at h
  repeat' split at h
  all_goals try (cases h; done)
  · cases h; exact hc
  · rename_i site hcur
    cases h
    refine ⟨hc.csp, fun p hp => ?_, nofun, hc.ports⟩
    rcases List.mem_append.1 hp with hp | hp
    · exact hc.pending p hp
    · rw [List.mem_singleton.1 hp]; exact Redirects.finish_clean (hc.cur site hcur)
  · exact openSite_clean hc h
  · exact redirectLine_clean hc h
  · rename_i site hcur
    exact siteSetting_clean hc (hc.cur site hcur) h
  · exact serverSetting_clean hc h

end

theorem parseLines_clean : ∀ (ls : List Str) {st st' : ParseState} {n : Nat}, st.Clean →
    parseLines st n ls = .ok st' → st'.Clean
  | [], _, _, _, hc, h => by cases h; exact hc
  | l :: ls, st, st', n, hc, h => by
    unfold parseLines at h
    cases hl : parseLine st n l with
    | error e => rw [hl] at h; cases h
    | ok st1 => rw [hl] at h; exact parseLines_clean ls (parseLine_clean hc hl) h

/-! ## The config -/

/-- What an accepted config puts into responses is clean, and its ports hold no colon. -/
structure Config.Clean (cfg : Config) : Prop where
  csp : Lib.Clean cfg.headers.csp
  siteCsp : ∀ s ∈ cfg.sites, Lib.Clean s.headers.csp
  redirects : ∀ s ∈ cfg.sites, s.redirects.Clean
  ports : 58 ∉ cfg.port ∧ 58 ∉ cfg.httpPort

theorem resolveSite_clean {t : Tuning} {h : HeaderConfig} {p : PendingSite} {s : SiteConfig} (hc : Clean h.csp)
    (hp : p.redirects.Clean) (hr : resolveSite t h p = .ok s) : Clean s.headers.csp ∧ s.redirects.Clean := by
  unfold resolveSite at hr
  simp only at hr
  repeat' split at hr
  all_goals try (cases hr; done)
  rename_i hov
  cases hr
  exact ⟨applyOverrides_clean _ hc hov, hp⟩

theorem resolveSites_clean {t : Tuning} {h : HeaderConfig} (hc : Clean h.csp) : ∀ (ps : List PendingSite)
    {ss : List SiteConfig}, (∀ p ∈ ps, p.redirects.Clean) → resolveSites t h ps = .ok ss →
    ∀ s ∈ ss, Clean s.headers.csp ∧ s.redirects.Clean
  | [], _, _, hr => by cases hr; nofun
  | p :: ps, ss, hp, hr => by
    unfold resolveSites at hr
    cases hs : resolveSite t h p with
    | error e => rw [hs] at hr; cases hr
    | ok s =>
      rw [hs] at hr
      obtain ⟨ss', hss, rfl⟩ := map_ok hr
      rintro s' (_ | ⟨_, hs'⟩)
      · exact resolveSite_clean hc (hp p List.mem_cons_self) hs
      · exact resolveSites_clean hc ps (fun q hq => hp q (List.mem_cons_of_mem _ hq)) hss s' hs'

theorem parseConfig_clean {text : Str} {cfg : Config} (h : parseConfig text = .ok cfg) : cfg.Clean := by
  unfold parseConfig at h
  cases hl : parseLines .init 1 (lines text) with
  | error e => rw [hl] at h; cases h
  | ok st =>
    have hc := parseLines_clean _ clean_init hl
    rw [hl] at h
    simp only at h
    repeat' split at h
    all_goals try (cases h; done)
    rename_i sites hsites
    cases h
    have hall := resolveSites_clean hc.csp st.pending hc.pending hsites
    exact ⟨hc.csp, fun s hs => (hall s hs).1, fun s hs => (hall s hs).2, hc.ports⟩

end BareServer
