/-
Where an assignment stands at the top level does not count. Line numbers are only for messages, and
a line gives the same before and after an assignment of another key.
-/
import BareServer.Config.Reading

namespace BareServer

open BareServer.Lib

/-! ## Line numbers -/

/-- A block without the line numbers that only messages use. -/
def PendingSite.erase (p : PendingSite) : PendingSite :=
  { p with line := 0, overrides := p.overrides.map fun o => (0, o.2) }

def ParseState.erase (st : ParseState) : ParseState :=
  { st with pending := st.pending.map (·.erase), cur := st.cur.map (·.erase) }

@[simp] theorem PendingSite.erase_erase (p : PendingSite) : p.erase.erase = p.erase := by
  simp [PendingSite.erase, Function.comp_def]

@[simp] theorem ParseState.erase_erase (st : ParseState) : st.erase.erase = st.erase := by
  simp [ParseState.erase, Function.comp_def]

/-- What a step gives, line numbers aside. -/
def outcome (x : Except Str ParseState) : Option ParseState := x.toOption.map (·.erase)

@[simp] theorem outcome_ok (st : ParseState) : outcome (.ok st) = some st.erase := rfl

section

variable (st : ParseState) (n m : Nat) (rest k v : Str)

theorem outcome_closeSite : outcome (closeSite st n) = outcome (closeSite st.erase m) := by
  obtain ⟨_, _, _, _, _, _, _, _, _, _, _, cur⟩ := st
  cases cur with
  | none => rfl
  | some p => simp [closeSite, ParseState.erase, PendingSite.erase, Function.comp_def]

theorem outcome_openSite : outcome (openSite st n rest) = outcome (openSite st.erase m rest) := by
  have hcur : st.erase.cur.isSome = st.cur.isSome := by simp [ParseState.erase]
  unfold openSite
  simp only [hcur]
  cases (str "=").isPrefixOf? (trim rest) with
  | some v => rfl
  | none =>
    simp only
    split
    · rfl
    cases (str "\x7b").isSuffixOf? (trim rest) with
    | none => rfl
    | some names =>
      simp only
      split
      · rfl
      · simp [ParseState.erase, PendingSite.erase, PendingSite.new, Function.comp_def]

theorem outcome_redirectLine : outcome (redirectLine st n rest) = outcome (redirectLine st.erase m rest) := by
  obtain ⟨_, _, _, _, _, _, _, _, _, _, _, cur⟩ := st
  unfold redirectLine
  simp only
  cases (str "=").isPrefixOf? (trim rest) with
  | some v => rfl
  | none =>
    cases cur with
    | none => rfl
    | some p =>
      simp only [ParseState.erase, Option.map_some]
      cases splitOnce (trim rest) (str "->") with
      | none => rfl
      | some pt =>
        simp only
        split
        · rfl
        · simp only [PendingSite.erase]
          cases p.redirects.push (trim pt.1) (trim pt.2) with
          | error e => rfl
          | ok r => simp [ParseState.erase, PendingSite.erase, Function.comp_def]

theorem outcome_siteSetting (p : PendingSite) :
    outcome (siteSetting st p n k v) = outcome (siteSetting st.erase p.erase m k v) := by
  have hput : ∀ q q' : PendingSite, q.erase = q'.erase →
      outcome (.ok { st with cur := some q }) = outcome (.ok { st.erase with cur := some q' }) := by
    intro q q' h
    simp [ParseState.erase, h, Function.comp_def]
  unfold siteSetting
  simp only
  split
  · exact hput _ _ (by simp [PendingSite.erase, Function.comp_def])
  split
  · exact hput _ _ (by simp [PendingSite.erase, Function.comp_def])
  split
  · exact hput _ _ (by simp [PendingSite.erase, Function.comp_def])
  split
  · cases parseBool k v with
    | error e => rfl
    | ok b => exact hput _ _ (by simp [PendingSite.erase, Function.comp_def])
  split
  · cases parseBool k v with
    | error e => rfl
    | ok b => exact hput _ _ (by simp [PendingSite.erase, Function.comp_def])
  split
  · rfl
  rw [show st.erase.tuning = st.tuning from rfl, show st.erase.headers = st.headers from rfl]
  split
  · rfl
  · rfl
  · exact hput _ _ (by simp [PendingSite.erase, Function.comp_def])

theorem outcome_serverSetting : outcome (serverSetting st n k v) = (TopSet.ofLine k v).map fun e => (e.apply st).erase := by
  cases h : serverSetting st n k v with
  | ok st' =>
    obtain ⟨e, he, rfl⟩ := TopSet.serverSetting_ok.1 h
    rw [he]
    rfl
  | error msg =>
    cases he : TopSet.ofLine k v with
    | none => rfl
    | some e =>
      rw [TopSet.serverSetting_ok.2 ⟨e, he, rfl⟩] at h
      cases h

theorem TopSet.apply_erase (e : TopSet) : (e.apply st).erase = e.apply st.erase := by cases e <;> rfl

/-- Line numbers do not decide what a line gives. -/
theorem outcome_parseLine (raw : Str) : outcome (parseLine st n raw) = outcome (parseLine st.erase m raw) := by
  rw [parseLine_eq, parseLine_eq]
  cases lineOf raw with
  | blank => simp
  | malformed => rfl
  | close => exact outcome_closeSite st n m
  | site rest => exact outcome_openSite st n m rest
  | redirect rest => exact outcome_redirectLine st n m rest
  | assign k v =>
    simp only [assignLine]
    cases hcur : st.cur with
    | none =>
      rw [show st.erase.cur = none by simp [ParseState.erase, hcur]]
      simp only [outcome_serverSetting, TopSet.apply_erase, ParseState.erase_erase]
    | some p =>
      rw [show st.erase.cur = some p.erase by simp [ParseState.erase, hcur]]
      exact outcome_siteSetting st n m k v p

end

/-! ## Runs -/

/-- Lines read from a state, line numbers aside. -/
def run (st : ParseState) : List Str → Option ParseState
  | [] => some st.erase
  | raw :: ls => (outcome (parseLine st 0 raw)).bind fun st' => run st' ls

theorem run_erase (st : ParseState) (ls : List Str) : run st.erase ls = run st ls := by
  cases ls with
  | nil => simp [run]
  | cons raw ls => rw [run, run, outcome_parseLine st 0 0 raw]

theorem outcome_parseLines (st : ParseState) (n : Nat) (ls : List Str) : outcome (parseLines st n ls) = run st ls := by
  induction ls generalizing st n with
  | nil => rfl
  | cons raw ls ih =>
    unfold parseLines run
    rw [outcome_parseLine st 0 0, ← outcome_parseLine st n 0]
    cases parseLine st n raw with
    | error e => rfl
    | ok st' =>
      simp only [outcome_ok, Option.bind_some, run_erase]
      exact ih st' (n + 1)

theorem run_append (st : ParseState) (as bs : List Str) : run st (as ++ bs) = (run st as).bind (run · bs) := by
  induction as generalizing st with
  | nil => simp [run, run_erase]
  | cons raw as ih =>
    simp only [List.cons_append, run, Option.bind_assoc, ih]

/-! ## Moving an assignment -/

section

variable (e : TopSet) (st : ParseState) (n : Nat) (rest k v : Str)

theorem TopSet.apply_cur : (e.apply st).cur = st.cur := by cases e <;> rfl

theorem TopSet.apply_pending : (e.apply st).pending = st.pending := by cases e <;> rfl

theorem TopSet.apply_put (cur : Option PendingSite) (pending : List PendingSite) :
    { e.apply st with cur, pending } = e.apply { st with cur, pending } := by cases e <;> rfl

theorem TopSet.apply_putCur (cur : Option PendingSite) :
    { e.apply st with cur } = e.apply { st with cur } := by cases e <;> rfl

theorem outcome_map_apply (x : Except Str ParseState) : outcome (x.map e.apply) = (outcome x).map e.apply := by
  cases x with
  | error m => rfl
  | ok st => simp [Except.map, TopSet.apply_erase]

theorem closeSite_apply : closeSite (e.apply st) n = (closeSite st n).map e.apply := by
  unfold closeSite
  rw [TopSet.apply_cur, TopSet.apply_pending]
  cases st.cur with
  | none => rfl
  | some p => exact congrArg Except.ok (TopSet.apply_put e st _ _)

theorem openSite_apply : openSite (e.apply st) n rest = (openSite st n rest).map e.apply := by
  unfold openSite
  simp only [TopSet.apply_cur, TopSet.apply_putCur]
  repeat' split
  all_goals rfl

theorem redirectLine_apply : redirectLine (e.apply st) n rest = (redirectLine st n rest).map e.apply := by
  unfold redirectLine
  simp only [TopSet.apply_cur, TopSet.apply_putCur]
  repeat' split
  all_goals rfl

theorem siteSetting_apply (p : PendingSite) : siteSetting (e.apply st) p n k v = (siteSetting st p n k v).map e.apply := by
  unfold siteSetting
  simp only [TopSet.apply_putCur, Shared.applyShared_eq]
  split
  · rfl
  split
  · rfl
  split
  · rfl
  split
  · cases parseBool k v <;> rfl
  split
  · cases parseBool k v <;> rfl
  split
  · rfl
  -- the value is checked against the defaults so far, which do not decide the check
  cases Shared.ofKey k with
  | none => rfl
  | some f =>
    simp only
    cases f.parse v <;> rfl

/-- An assignment set before a line gives what it gives after it, unless the line sets the same key. -/
theorem parseLine_apply (raw : Str) (h : ∀ k v, lineOf raw = .assign k v → st.cur = none → k ≠ e.key) :
    outcome (parseLine (e.apply st) n raw) = (outcome (parseLine st n raw)).map e.apply := by
  rw [parseLine_eq, parseLine_eq]
  cases hline : lineOf raw with
  | blank => simp [TopSet.apply_erase]
  | malformed => rfl
  | close => simp only [closeSite_apply, outcome_map_apply]
  | site rest => simp only [openSite_apply, outcome_map_apply]
  | redirect rest => simp only [redirectLine_apply, outcome_map_apply]
  | assign k v =>
    simp only [assignLine, TopSet.apply_cur]
    cases hcur : st.cur with
    | some p => simp only [siteSetting_apply, outcome_map_apply]
    | none =>
      simp only [outcome_serverSetting]
      cases he : TopSet.ofLine k v with
      | none => rfl
      | some e' =>
        have hne : e'.key ≠ e.key := TopSet.ofLine_key he ▸ h k v hline hcur
        simp only [Option.map_some, TopSet.apply_erase, TopSet.apply_comm hne]

end

/-! ## Layouts -/

theorem BlockRead.erase {b : Block} {p : PendingSite} (h : BlockRead b p) : BlockRead b p.erase where
  hosts := h.hosts
  root := h.root
  cert := h.cert
  key := h.key
  forceSsl := h.forceSsl
  canonicalUrls := h.canonicalUrls
  redirects := h.redirects
  overrides f := by simpa only [PendingSite.erase, List.map_map, Function.comp_def] using h.overrides f
  parsed := h.parsed

/-- Line numbers are not part of what a layout says. -/
theorem Reads.erase {l : Layout} {st : ParseState} (h : Reads l st) : Reads l st.erase where
  shared := h.shared
  parsed := h.parsed
  budget := h.budget
  pending := by
    refine List.forall₂_map_right_iff.2 (h.pending.imp ?_)
    rintro b _ ⟨p, hp, rfl⟩
    exact ⟨p.erase, hp.erase, rfl⟩
  cur := by
    have hcur := h.cur
    simp only [ParseState.erase]
    generalize l.cur = b at hcur ⊢
    generalize st.cur = p at hcur ⊢
    cases hcur with
    | none => exact .none
    | some hb => exact .some hb.erase

/-- Whether a block is open is what the layout says. -/
theorem Reads.closed_iff {l : Layout} {st : ParseState} (h : Reads l st) : st.cur = none ↔ l.cur = none := by
  have hcur := h.cur
  generalize l.cur = b at hcur ⊢
  generalize st.cur = p at hcur ⊢
  cases hcur with
  | none => exact iff_of_true rfl rfl
  | some hb => exact iff_of_false (Option.some_ne_none _) (Option.some_ne_none _)

/-- More lines leave the top-level assignments that are there. -/
theorem Layout.top_subset_add (l : Layout) (line : Line) : l.top ⊆ (l.add line).top := by
  obtain ⟨top, blocks, cur⟩ := l
  cases line <;> cases cur <;> simp [Layout.add]

theorem Layout.top_subset_foldl (l : Layout) (ls : List Str) :
    l.top ⊆ (ls.foldl (fun l raw => l.add (lineOf raw)) l).top := by
  induction ls generalizing l with
  | nil => exact List.Subset.refl _
  | cons raw ls ih => exact List.Subset.trans (l.top_subset_add _) (ih _)

/-- An assignment set before some lines gives what it gives after them, unless one of them sets the
same key at the top level. -/
theorem run_apply (e : TopSet) (ls : List Str) {l : Layout} {st : ParseState} (hr : Reads l st)
    (hkey : ∀ kv ∈ (ls.foldl (fun l raw => l.add (lineOf raw)) l).top, kv.1 ≠ e.key) :
    run (e.apply st) ls = (run st ls).map e.apply := by
  induction ls generalizing l st with
  | nil => simp [run, TopSet.apply_erase]
  | cons raw ls ih =>
    have hline : ∀ k v, lineOf raw = .assign k v → st.cur = none → k ≠ e.key := by
      intro k v hline hcur
      have hnone := hr.closed_iff.1 hcur
      refine hkey (k, v) (Layout.top_subset_foldl _ ls ?_)
      simp [hline, Layout.add, hnone]
    rw [run, run, parseLine_apply e st 0 raw hline]
    cases hp : parseLine st 0 raw with
    | error m => rfl
    | ok st' =>
      simpa using ih (parseLine_reads hr hp).erase hkey

/-! ## The whole file -/

/-- The end of `parse_config`, once every line is read. -/
def finishFile (st : ParseState) : Option Config :=
  if st.cur.isSome || (st.host.isEmpty || st.port.isEmpty) || st.pending.isEmpty ||
      (st.storage == .disk && (st.diskCache.getD []).isEmpty) then none
  else (resolveSites st.tuning st.headers st.pending).toOption.map fun sites =>
    { host := st.host, port := st.port, httpHost := st.httpHost, httpPort := st.httpPort, sites,
      headers := st.headers, maxConnsPerIp := st.maxConnsPerIp, maxResponseSecs := st.maxResponseSecs,
      storage := st.storage, diskCache := st.diskCache }

theorem applyOverrides_erase (os : List (Nat × Str × Str)) (t : Tuning) (h : HeaderConfig) :
    (applyOverrides t h (os.map fun o => (0, o.2))).toOption = (applyOverrides t h os).toOption := by
  induction os generalizing t h with
  | nil => rfl
  | cons o os ih =>
    obtain ⟨n, k, v⟩ := o
    rw [List.map_cons]
    unfold applyOverrides
    cases applyShared t h k v with
    | error e => rfl
    | ok r =>
      cases r with
      | none => exact ih t h
      | some s => exact ih s.1 s.2

theorem resolveSite_toOption (t : Tuning) (h : HeaderConfig) (p : PendingSite) : (resolveSite t h p).toOption =
    p.cert.bind fun cert => p.key.bind fun key =>
      if p.root.isNone && p.redirects.isEmpty then none
      else (applyOverrides t h p.overrides).toOption.map fun s =>
        { hosts := p.hosts, root := p.root, cert, key, forceSsl := p.forceSsl, canonicalUrls := p.canonicalUrls,
          redirects := p.redirects, tuning := s.1, headers := s.2 } := by
  unfold resolveSite
  cases p.cert with
  | none => rfl
  | some cert =>
    cases p.key with
    | none => rfl
    | some key =>
      simp only [Option.bind_some]
      split
      · rfl
      · cases applyOverrides t h p.overrides <;> rfl

theorem resolveSite_erase (t : Tuning) (h : HeaderConfig) (p : PendingSite) :
    (resolveSite t h p.erase).toOption = (resolveSite t h p).toOption := by
  rw [resolveSite_toOption, resolveSite_toOption]
  simp only [PendingSite.erase, applyOverrides_erase]

theorem resolveSites_erase (t : Tuning) (h : HeaderConfig) (ps : List PendingSite) :
    (resolveSites t h (ps.map (·.erase))).toOption = (resolveSites t h ps).toOption := by
  induction ps with
  | nil => rfl
  | cons p ps ih =>
    have hp := resolveSite_erase t h p
    rw [List.map_cons]
    unfold resolveSites
    cases ha : resolveSite t h p <;> cases hb : resolveSite t h p.erase <;> rw [ha, hb] at hp <;>
      simp only [Except.toOption, reduceCtorEq, Option.some.injEq] at hp
    · rfl
    · subst hp
      cases hc : resolveSites t h ps <;> cases hd : resolveSites t h (ps.map (·.erase)) <;>
        simp_all [Except.toOption, Except.map]

theorem finishFile_erase (st : ParseState) : finishFile st.erase = finishFile st := by
  unfold finishFile
  simp [ParseState.erase, resolveSites_erase]

theorem parseConfig_eq (text : Str) : (parseConfig text).toOption = (run .init (lines text)).bind finishFile := by
  rw [← outcome_parseLines .init 1]
  unfold parseConfig
  cases parseLines .init 1 (lines text) with
  | error e => rfl
  | ok st =>
    rw [outcome_ok, Option.bind_some, finishFile_erase]
    unfold finishFile
    simp only
    cases st.cur with
    | some p => rfl
    | none =>
      simp only [Option.isSome_none, Bool.false_or]
      by_cases h1 : (st.host.isEmpty || st.port.isEmpty) = true
      · simp [h1, Except.toOption]
      by_cases h2 : st.pending.isEmpty = true
      · simp [h1, h2, Except.toOption]
      by_cases h3 : (st.storage == .disk && (st.diskCache.getD []).isEmpty) = true
      · simp [h1, h2, h3, Except.toOption]
      rw [if_neg h1, if_neg h2, if_neg h3, if_neg (by simp [h1, h2, h3])]
      cases resolveSites st.tuning st.headers st.pending <;> rfl

theorem reads_run (ls : List Str) {l : Layout} {st st' : ParseState} (hr : Reads l st) (h : run st ls = some st') :
    Reads (ls.foldl (fun l raw => l.add (lineOf raw)) l) st' := by
  induction ls generalizing l st with
  | nil =>
    cases h
    exact hr.erase
  | cons raw ls ih =>
    rw [run] at h
    cases hp : parseLine st 0 raw with
    | error e => rw [hp] at h; cases h
    | ok st1 =>
      rw [hp, outcome_ok, Option.bind_some, run_erase] at h
      exact ih (parseLine_reads hr hp) h

/-- A line of the top level, in a state with no open block. -/
theorem run_assign {st : ParseState} {raw k v : Str} (hcur : st.cur = none) (hline : lineOf raw = .assign k v) :
    run st [raw] = (TopSet.ofLine k v).map fun e => (e.apply st).erase := by
  rw [run, parseLine_eq, hline]
  simp only [assignLine, hcur, outcome_serverSetting]
  cases TopSet.ofLine k v with
  | none => rfl
  | some e => simp [run]

/-- An assignment whose key is set once at the top level may stand anywhere there. -/
theorem run_move {before between after : List Str} {raw k v : Str} (hline : lineOf raw = .assign k v)
    (hfrom : (layoutOf before).cur = none) (hto : (layoutOf (before ++ between)).cur = none)
    (honce : ∀ kv ∈ (layoutOf (before ++ between)).top, kv.1 ≠ k) :
    run .init (before ++ raw :: between ++ after) = run .init (before ++ between ++ raw :: after) := by
  have hcur : ∀ {ls st}, (layoutOf ls).cur = none → run .init ls = some st → st.cur = none := by
    intro ls st hl hr
    exact (reads_run ls reads_init hr).closed_iff.2 hl
  rw [show before ++ raw :: between ++ after = before ++ ([raw] ++ (between ++ after)) by simp,
    show before ++ between ++ raw :: after = before ++ (between ++ ([raw] ++ after)) by simp]
  simp only [run_append]
  cases hb : run .init before with
  | none => rfl
  | some st =>
    have hbetween : ∀ s, run st between = some s → s.cur = none := fun s hs =>
      hcur hto (by rw [run_append, hb]; exact hs)
    simp only [Option.bind_some]
    rw [run_assign (hcur hfrom hb) hline]
    cases he : TopSet.ofLine k v with
    | none =>
      cases hs : run st between with
      | none => rfl
      | some s => simp [run_assign (hbetween s hs) hline, he]
    | some e =>
      have hreads : Reads (layoutOf before) st := reads_run before reads_init hb
      have hkeys : ∀ kv ∈ (between.foldl (fun l raw => l.add (lineOf raw)) (layoutOf before)).top, kv.1 ≠ e.key := by
        rw [TopSet.ofLine_key he, layoutOf, ← List.foldl_append]
        exact honce
      simp only [Option.map_some, Option.bind_some, run_erase, run_apply e between hreads hkeys]
      cases hs : run st between with
      | none => rfl
      | some s => simp [run_assign (hbetween s hs) hline, he, run_erase]

theorem forall₂_getElem? {α β : Type} {R : α → β → Prop} {as : List α} {bs : List β} (h : List.Forall₂ R as bs) (i : Nat) :
    Option.Rel R as[i]? bs[i]? := by
  induction h generalizing i with
  | nil => exact .none
  | cons hab _ ih =>
    cases i with
    | zero => exact .some hab
    | succ i => simpa using ih i

/-- An accepted file gives each site, for every shared setting, the last value in its own block, else
the last at the top level, else the default, and nothing of another block: a site is a function of
its block and the top level. An assignment of a key set once at the top level may be moved to any
other place there. -/
theorem parseConfig_settings (text : Str) :
    (∀ cfg, parseConfig text = .ok cfg →
      List.Forall₂ (SiteOf (layoutOf (lines text)).top) (layoutOf (lines text)).blocks cfg.sites ∧
      ∀ text' cfg', parseConfig text' = .ok cfg' → (layoutOf (lines text')).top = (layoutOf (lines text)).top →
        ∀ i j : Nat, (layoutOf (lines text')).blocks[j]? = (layoutOf (lines text)).blocks[i]? →
          cfg'.sites[j]? = cfg.sites[i]?) ∧
    ∀ (text' : Str) (before between after : List Str) (raw k v : Str), lines text = before ++ raw :: between ++ after →
      lines text' = before ++ between ++ raw :: after → lineOf raw = .assign k v →
      (layoutOf before).cur = none → (layoutOf (before ++ between)).cur = none →
      (∀ kv ∈ (layoutOf (before ++ between ++ after)).top, kv.1 ≠ k) →
      (parseConfig text').toOption = (parseConfig text).toOption := by
  constructor
  · intro cfg hcfg
    refine ⟨parseConfig_sites hcfg, fun text' cfg' hcfg' htop i j hblock => ?_⟩
    have hi := forall₂_getElem? (parseConfig_sites hcfg) i
    have hj := forall₂_getElem? (parseConfig_sites hcfg') j
    rw [htop, hblock] at hj
    generalize (layoutOf (lines text)).blocks[i]? = b at hi hj
    generalize cfg.sites[i]? = s at hi
    generalize cfg'.sites[j]? = s' at hj
    cases hi with
    | none => cases hj; rfl
    | some hs =>
      cases hj with
      | some hs' => rw [hs'.unique hs]
  · intro text' before between after raw k v hlines hlines' hline hfrom hto honce
    rw [parseConfig_eq, parseConfig_eq, hlines, hlines']
    refine congrArg (Option.bind · finishFile) (run_move hline hfrom hto fun kv hkv => honce kv ?_).symm
    rw [layoutOf, List.foldl_append]
    exact Layout.top_subset_foldl _ after hkv

/-- A default written below a block, and the same file with it above. -/
theorem parseConfig_settings_moved :
    let above := str ("listen = h:443\nbrotli_quality = 4\nsite a \x7b\n root = /w\n cert = /c\n key = /k\n" ++
      " gzip_level = 3\n\x7d\n")
    let below := str ("listen = h:443\nsite a \x7b\n root = /w\n cert = /c\n key = /k\n gzip_level = 3\n\x7d\n" ++
      "brotli_quality = 4\n")
    (parseConfig below).toOption = (parseConfig above).toOption ∧
    ∃ cfg, parseConfig above = .ok cfg ∧
      List.Forall₂ (SiteOf (layoutOf (lines above)).top) (layoutOf (lines above)).blocks cfg.sites := by
  intro above below
  have hok : (parseConfig above).toOption.any (fun _ => true) = true := by decide +kernel
  obtain ⟨cfg, hcfg, -⟩ := ok_of_any hok
  have h := parseConfig_settings above
  refine ⟨h.2 below [str "listen = h:443"]
    [str "site a \x7b", str " root = /w", str " cert = /c", str " key = /k", str " gzip_level = 3", str "\x7d"] []
    (str "brotli_quality = 4") (str "brotli_quality") (str "4") ?_ ?_ ?_ ?_ ?_ ?_, cfg, hcfg, (h.1 cfg hcfg).1⟩
  · decide +kernel
  · decide +kernel
  · decide +kernel
  · exact Option.isNone_iff_eq_none.1 (by decide +kernel)
  · exact Option.isNone_iff_eq_none.1 (by decide +kernel)
  · decide +kernel

end BareServer
