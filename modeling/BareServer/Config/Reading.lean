/-
Reading a config file line by line: what has been read is what the layout of the lines says, so each
site of an accepted file is what its block and the top level say.
-/
import BareServer.Config.Layout
import BareServer.Config.ParseSpec
import BareServer.Config.TopSet

namespace BareServer

open BareServer.Lib

/-! ## What has been read -/

/-- An open block as it has been read. -/
structure BlockRead (b : Block) (p : PendingSite) : Prop where
  hosts : p.hosts = b.names
  root : p.root = lastOf (str "root") b.assigns
  cert : p.cert = lastOf (str "cert") b.assigns
  key : p.key = lastOf (str "key") b.assigns
  forceSsl : p.forceSsl = flagOf (str "force_ssl") b.assigns true
  canonicalUrls : p.canonicalUrls = flagOf (str "canonical_urls") b.assigns false
  redirects : Redirects.pushLines default b.rules = .ok p.redirects
  overrides : ∀ f : Shared, lastOf f.key (p.overrides.map (·.2)) = lastOf f.key b.assigns
  parsed : Parsed b.assigns

/-- A closed block: its rules are sorted. -/
def BlockClosed (b : Block) (p : PendingSite) : Prop :=
  ∃ open', BlockRead b open' ∧ p = { open' with redirects := open'.redirects.finish }

/-- The values read so far are those of a layout. -/
structure Reads (l : Layout) (st : ParseState) : Prop where
  shared : ∀ f : Shared, f.get (st.tuning, st.headers) = (f.given l.top).getD (f.get (.default, .default))
  parsed : Parsed l.top
  budget : st.tuning.maxTotalBytes = budgetOf l.top
  pending : List.Forall₂ BlockClosed l.blocks st.pending
  cur : Option.Rel BlockRead l.cur st.cur

theorem reads_init : Reads .empty .init :=
  ⟨fun _ => rfl, parsed_nil, rfl, .nil, .none⟩

@[simp] theorem Block.add_assigns (b : Block) (line : Line) : (b.add line).assigns =
    b.assigns ++ (match line with
      | .assign k v => [(k, v)]
      | _ => []) := by
  cases line <;> simp [Block.add, Block.assigns]

@[simp] theorem Block.add_rules (b : Block) (line : Line) : (b.add line).rules =
    b.rules ++ (match line with
      | .redirect rest => (ruleOf rest).toList
      | _ => []) := by
  cases line with
  | redirect rest => cases h : ruleOf rest <;> simp [Block.add, Block.rules, h]
  | _ => simp [Block.add, Block.rules]

@[simp] theorem Block.add_names (b : Block) (line : Line) : (b.add line).names = b.names := rfl

theorem Redirects.pushLines_append {r r' : Redirects} {lines : List (Str × Str)} {pattern target : Str} (h : r.pushLines lines = .ok r') :
    r.pushLines (lines ++ [(pattern, target)]) = r'.push pattern target := by
  induction lines generalizing r with
  | nil =>
    cases h
    simp only [List.nil_append, Redirects.pushLines]
    cases r'.push pattern target <;> rfl
  | cons line lines ih =>
    simp only [List.cons_append, Redirects.pushLines] at h ⊢
    cases hp : r.push line.1 line.2 with
    | error e => rw [hp] at h; cases h
    | ok r'' =>
      rw [hp] at h
      exact ih h

/-- The keys a block owns are no shared settings. -/
theorem blockKeys_ne : ∀ f ∈ Shared.all, str "root" ≠ f.key ∧ str "cert" ≠ f.key ∧ str "key" ≠ f.key ∧
    str "force_ssl" ≠ f.key ∧ str "canonical_urls" ≠ f.key := by decide +kernel

theorem flagOf_append (k : Str) (assigns : List (Str × Str)) (kv : Str × Str) (default : Bool) :
    flagOf k (assigns ++ [kv]) default =
      if kv.1 = k then ((parseBool k kv.2).toOption).getD default else flagOf k assigns default := by
  unfold flagOf
  rw [lastOf_append]
  split <;> rfl

/-! ## Lines of a block -/

section

variable {b : Block} {p : PendingSite} {st st' : ParseState} {n : Nat} {k v rest : Str}

/-- One assignment more, whichever field it is for. -/
theorem BlockRead.assign {p' : PendingSite} (h : BlockRead b p) (hosts : p'.hosts = p.hosts)
    (redirects : p'.redirects = p.redirects)
    (root : p'.root = if k = str "root" then some v else p.root)
    (cert : p'.cert = if k = str "cert" then some v else p.cert)
    (key : p'.key = if k = str "key" then some v else p.key)
    (forceSsl : p'.forceSsl = if k = str "force_ssl" then (parseBool (str "force_ssl") v).toOption.getD true else p.forceSsl)
    (canonicalUrls : p'.canonicalUrls =
      if k = str "canonical_urls" then (parseBool (str "canonical_urls") v).toOption.getD false else p.canonicalUrls)
    (overrides : ∀ f : Shared, lastOf f.key (p'.overrides.map (·.2)) =
      if k = f.key then some v else lastOf f.key (p.overrides.map (·.2)))
    (given : ∀ f : Shared, k = f.key → ∃ x, f.parse v = .ok x) : BlockRead (b.add (.assign k v)) p' := by
  constructor
  · rw [hosts, h.hosts, Block.add_names]
  · rw [root, Block.add_assigns, lastOf_append, h.root]
  · rw [cert, Block.add_assigns, lastOf_append, h.cert]
  · rw [key, Block.add_assigns, lastOf_append, h.key]
  · rw [forceSsl, Block.add_assigns, flagOf_append, h.forceSsl]
  · rw [canonicalUrls, Block.add_assigns, flagOf_append, h.canonicalUrls]
  · rw [redirects, Block.add_rules, List.append_nil]
    exact h.redirects
  · intro f
    rw [overrides, Block.add_assigns, lastOf_append, h.overrides]
  · rw [Block.add_assigns]
    exact h.parsed.append given

/-- A setting of a block changes that block only. -/
theorem siteSetting_ok (hp : BlockRead b p) (h : siteSetting st p n k v = .ok st') :
    ∃ p', st' = { st with cur := some p' } ∧ BlockRead (b.add (.assign k v)) p' := by
  -- five keys of the block alone, none of them a shared setting, and then the overrides
  have hne := fun f => blockKeys_ne f (Shared.mem_all f)
  unfold siteSetting at h
  simp only [beq_iff_eq] at h
  split at h
  · rename_i hk
    subst hk
    cases h
    exact ⟨_, rfl, hp.assign rfl rfl (by simp) (by simp +decide) (by simp +decide) (by simp +decide) (by simp +decide)
      (fun f => by rw [if_neg (hne f).1]) fun f he => absurd he (hne f).1⟩
  split at h
  · rename_i hk
    subst hk
    cases h
    exact ⟨_, rfl, hp.assign rfl rfl (by simp +decide) (by simp) (by simp +decide) (by simp +decide) (by simp +decide)
      (fun f => by rw [if_neg (hne f).2.1]) fun f he => absurd he (hne f).2.1⟩
  split at h
  · rename_i hk
    subst hk
    cases h
    exact ⟨_, rfl, hp.assign rfl rfl (by simp +decide) (by simp +decide) (by simp) (by simp +decide) (by simp +decide)
      (fun f => by rw [if_neg (hne f).2.2.1]) fun f he => absurd he (hne f).2.2.1⟩
  split at h
  · rename_i hk
    subst hk
    obtain ⟨x, hx, rfl⟩ := map_ok h
    cases hb : parseBool (str "force_ssl") v with
    | error e => rw [hb] at hx; cases hx
    | ok y =>
      rw [hb] at hx
      cases hx
      exact ⟨_, rfl, hp.assign rfl rfl (by simp +decide) (by simp +decide) (by simp +decide)
        (by simp [hb, Except.toOption]) (by simp +decide) (fun f => by rw [if_neg (hne f).2.2.2.1]) fun f he => absurd he (hne f).2.2.2.1⟩
  split at h
  · rename_i hk
    subst hk
    obtain ⟨x, hx, rfl⟩ := map_ok h
    cases hb : parseBool (str "canonical_urls") v with
    | error e => rw [hb] at hx; cases hx
    | ok y =>
      rw [hb] at hx
      cases hx
      exact ⟨_, rfl, hp.assign rfl rfl (by simp +decide) (by simp +decide) (by simp +decide) (by simp +decide)
        (by simp [hb, Except.toOption]) (fun f => by rw [if_neg (hne f).2.2.2.2]) fun f he => absurd he (hne f).2.2.2.2⟩
  split at h
  · cases h
  split at h
  · cases h
  · cases h
  · rename_i h1 h2 h3 h4 h5 _ _ _ _ hshared
    cases h
    refine ⟨_, rfl, hp.assign rfl rfl (by rw [if_neg h1]) (by rw [if_neg h2]) (by rw [if_neg h3]) (by rw [if_neg h4])
      (by rw [if_neg h5]) (fun f => ?_) fun f he => ?_⟩
    · rw [List.map_append, List.map_singleton, lastOf_append]
    · obtain ⟨g, x, hg, hx, -⟩ := Shared.applyShared_ok hshared
      rw [he, Shared.ofKey_key] at hg
      cases hg
      exact ⟨x, hx⟩

/-- A rule of a block joins its rules. -/
theorem redirectLine_ok (h : redirectLine st n rest = .ok st') : ∃ p, st.cur = some p ∧
    ∀ b, BlockRead b p → ∃ p', st' = { st with cur := some p' } ∧ BlockRead (b.add (.redirect rest)) p' := by
  unfold redirectLine at h
  simp only at h
  repeat' split at h
  all_goals try (cases h; done)
  rename_i p hcur _ pat target hsplit hpat _ r hpush
  cases h
  refine ⟨p, hcur, fun b hb => ⟨_, rfl, ?_⟩⟩
  have hrule : ruleOf rest = some (trim pat, trim target) := by rw [ruleOf, hsplit]; rfl
  refine ⟨hb.hosts, ?_, ?_, ?_, ?_, ?_, ?_, fun f => ?_, ?_⟩
  · simpa using hb.root
  · simpa using hb.cert
  · simpa using hb.key
  · simpa using hb.forceSsl
  · simpa using hb.canonicalUrls
  · simp only [Block.add_rules, hrule, Option.toList]
    exact (Redirects.pushLines_append hb.redirects).trans hpush
  · simpa using hb.overrides f
  · simpa using hb.parsed

/-- A block opens with its names. -/
theorem openSite_ok (h : openSite st n rest = .ok st') :
    st.cur = none ∧ ∃ p, st' = { st with cur := some p } ∧ BlockRead ⟨rest, []⟩ p := by
  unfold openSite at h
  simp only at h
  repeat' split at h
  all_goals try (cases h; done)
  rename_i hcur _ names hnames hne
  cases h
  refine ⟨by simpa using hcur, _, rfl, ?_, rfl, rfl, rfl, rfl, rfl, rfl, fun f => rfl, parsed_nil⟩
  simp [PendingSite.new, Block.names, hnames]

end

/-! ## The file -/

/-- An assignment at the top level leaves the blocks alone. -/
theorem Reads.assign {l : Layout} {st : ParseState} {k v : Str} {e : TopSet} (hr : Reads l st) (hcur : l.cur = none)
    (h : TopSet.ofLine k v = some e) : Reads (l.add (.assign k v)) (e.apply st) := by
  have hadd : l.add (.assign k v) = { l with top := l.top ++ [(k, v)] } := by simp [Layout.add, hcur]
  have hblocks : (e.apply st).pending = st.pending ∧ (e.apply st).cur = st.cur := by
    cases e <;> exact ⟨rfl, rfl⟩
  rw [hadd]
  refine ⟨fun f => ?_, hr.parsed.append fun f hk => TopSet.ofLine_parse h hk, ?_, hblocks.1 ▸ hr.pending, hblocks.2 ▸ hr.cur⟩
  · rw [TopSet.given_top h f (f.get (.default, .default)), Shared.given_append, hr.shared]
    split <;> rfl
  · rw [TopSet.budget_top h, budgetOf, lastOf_append, hr.budget]
    split <;> rfl

theorem parseLine_reads {l : Layout} {st st' : ParseState} {n : Nat} {raw : Str} (hr : Reads l st)
    (h : parseLine st n raw = .ok st') : Reads (l.add (lineOf raw)) st' := by
  obtain ⟨top, blocks, cur⟩ := l
  rw [parseLine_eq] at h
  have hcur := hr.cur
  generalize hcur' : st.cur = c at hcur
  cases hline : lineOf raw with
  | malformed => rw [hline] at h; cases h
  | blank =>
    rw [hline] at h
    cases h
    exact hr
  | close =>
    rw [hline] at h
    simp only [closeSite, hcur'] at h
    cases hcur with
    | none => cases h
    | some hb =>
      cases h
      exact ⟨hr.shared, hr.parsed, hr.budget, List.rel_append hr.pending (.cons ⟨_, hb, rfl⟩ .nil), .none⟩
  | site rest =>
    rw [hline] at h
    obtain ⟨-, p, rfl, hp⟩ := openSite_ok h
    exact ⟨hr.shared, hr.parsed, hr.budget, hr.pending, .some hp⟩
  | redirect rest =>
    rw [hline] at h
    obtain ⟨p, hp, hread⟩ := redirectLine_ok h
    rw [hcur'] at hp
    subst hp
    cases hcur with
    | some hb =>
      obtain ⟨p', rfl, hp'⟩ := hread _ hb
      exact ⟨hr.shared, hr.parsed, hr.budget, hr.pending, .some hp'⟩
  | assign k v =>
    rw [hline] at h
    simp only [assignLine, hcur'] at h
    cases hcur with
    | none =>
      obtain ⟨e, he, rfl⟩ := TopSet.serverSetting_ok.1 h
      exact hr.assign rfl he
    | some hb =>
      obtain ⟨p', rfl, hp'⟩ := siteSetting_ok hb h
      exact ⟨hr.shared, hr.parsed, hr.budget, hr.pending, .some hp'⟩

/-- Accepted lines have been read as their layout says. -/
theorem parseLines_reads {ls : List Str} {l : Layout} {st st' : ParseState} {n : Nat} (hr : Reads l st)
    (h : parseLines st n ls = .ok st') : Reads (ls.foldl (fun l raw => l.add (lineOf raw)) l) st' := by
  induction ls generalizing l st n with
  | nil =>
    cases h
    exact hr
  | cons raw ls ih =>
    unfold parseLines at h
    cases hl : parseLine st n raw with
    | error e => rw [hl] at h; cases h
    | ok st1 =>
      rw [hl] at h
      exact ih (parseLine_reads hr hl) h

/-! ## Sites -/

theorem applyOverrides_append (t : Tuning) (h : HeaderConfig) (os : List (Nat × Str × Str)) (o : Nat × Str × Str) :
    applyOverrides t h (os ++ [o]) = (applyOverrides t h os).bind fun s => applyOverrides s.1 s.2 [o] := by
  induction os generalizing t h with
  | nil => rfl
  | cons a os ih =>
    obtain ⟨n, k, v⟩ := a
    rw [List.cons_append]
    unfold applyOverrides
    cases applyShared t h k v with
    | error e => rfl
    | ok r =>
      cases r with
      | none => exact ih t h
      | some s => exact ih s.1 s.2

/-- Overrides give each setting the last value assigned to it. -/
theorem applyOverrides_ok {t t' : Tuning} {h h' : HeaderConfig} {os : List (Nat × Str × Str)}
    (ha : applyOverrides t h os = .ok (t', h')) :
    (∀ f : Shared, f.get (t', h') = (f.given (os.map (·.2))).getD (f.get (t, h))) ∧
      t'.maxTotalBytes = t.maxTotalBytes := by
  induction os using List.reverseRecOn generalizing t' h' with
  | nil =>
    cases ha
    exact ⟨fun _ => rfl, rfl⟩
  | append_singleton os o ih =>
    obtain ⟨n, k, v⟩ := o
    rw [applyOverrides_append] at ha
    cases hos : applyOverrides t h os with
    | error e => rw [hos] at ha; cases ha
    | ok s =>
      obtain ⟨t1, h1⟩ := s
      obtain ⟨ihf, ihm⟩ := ih hos
      rw [hos] at ha
      simp only [Except.bind, applyOverrides] at ha
      have hmap : (os ++ [(n, k, v)]).map (·.2) = os.map (·.2) ++ [(k, v)] := by simp
      simp only [hmap, Shared.given_append]
      cases hs : applyShared t1 h1 k v with
      | error e => rw [hs] at ha; cases ha
      | ok r =>
        rw [hs] at ha
        cases r with
        | none =>
          cases ha
          rw [Shared.applyShared_eq] at hs
          cases hk : Shared.ofKey k with
          | some g =>
            rw [hk] at hs
            obtain ⟨x, -, hx⟩ := map_ok hs
            cases hx
          | none =>
            refine ⟨fun f => ?_, ihm⟩
            have hne : k ≠ f.key := fun he => by rw [he, Shared.ofKey_key] at hk; cases hk
            rw [if_neg hne, ihf]
        | some s =>
          cases ha
          obtain ⟨g, x, hk, hx, hset⟩ := Shared.applyShared_ok hs
          have hkey := Shared.ofKey_some hk
          subst hkey
          rw [hset]
          constructor
          · intro f
            by_cases hf : g = f
            · subst hf
              rw [Shared.get_set, if_pos rfl, hx]
              rfl
            · have hne : g.key ≠ f.key := fun he =>
                hf (Shared.key_injective g (Shared.mem_all g) f (Shared.mem_all f) he)
              rw [Shared.get_set_other (Ne.symm hf), if_neg hne, ihf]
          · exact (Shared.set_maxTotalBytes g x (t1, h1)).trans ihm

/-- A resolved site is what its block and the top level say. -/
theorem siteOf_resolveSite {l : Layout} {st : ParseState} (hr : Reads l st) {b : Block} {p : PendingSite}
    (hb : BlockClosed b p) {s : SiteConfig} (h : resolveSite st.tuning st.headers p = .ok s) : SiteOf l.top b s := by
  obtain ⟨q, hq, rfl⟩ := hb
  unfold resolveSite at h
  simp only at h
  repeat' split at h
  all_goals try (cases h; done)
  rename_i cert hcert _ key hkey _ _ t' h' hov
  cases h
  obtain ⟨hshared, hbudget⟩ := applyOverrides_ok hov
  refine ⟨hq.hosts, hq.root, hq.cert ▸ hcert, hq.key ▸ hkey, hq.forceSsl, hq.canonicalUrls, ⟨_, hq.redirects, rfl⟩,
    fun f => ?_, ⟨hq.parsed, hr.parsed⟩, hbudget.trans hr.budget⟩
  have hgiven : f.given (q.overrides.map (·.2)) = f.given b.assigns := by
    unfold Shared.given
    rw [hq.overrides]
  rw [hshared, hgiven, hr.shared]
  cases f.given b.assigns <;> rfl

theorem siteOf_resolveSites {l : Layout} {st : ParseState} (hr : Reads l st) {bs : List Block} {ps : List PendingSite}
    (hb : List.Forall₂ BlockClosed bs ps) {ss : List SiteConfig} (h : resolveSites st.tuning st.headers ps = .ok ss) :
    List.Forall₂ (SiteOf l.top) bs ss := by
  induction hb generalizing ss with
  | nil =>
    cases h
    exact .nil
  | cons hbp _ ih =>
    unfold resolveSites at h
    split at h
    · cases h
    · rename_i s hs
      obtain ⟨ss', hss, rfl⟩ := map_ok h
      exact .cons (siteOf_resolveSite hr hbp hs) (ih hss)

theorem forall₂_mem_right {α β : Type} {R : α → β → Prop} {as : List α} {bs : List β} (h : List.Forall₂ R as bs) {b : β}
    (hb : b ∈ bs) : ∃ a ∈ as, R a b := by
  induction h with
  | nil => cases hb
  | cons hab _ ih =>
    rcases List.mem_cons.1 hb with rfl | hb
    · exact ⟨_, List.mem_cons_self, hab⟩
    · obtain ⟨a, ha, hr⟩ := ih hb
      exact ⟨a, List.mem_cons_of_mem _ ha, hr⟩

/-- The sites of an accepted file are what their blocks and the top level say. -/
theorem parseConfig_sites {text : Str} {cfg : Config} (h : parseConfig text = .ok cfg) :
    List.Forall₂ (SiteOf (layoutOf (lines text)).top) (layoutOf (lines text)).blocks cfg.sites := by
  unfold parseConfig at h
  cases hl : parseLines .init 1 (lines text) with
  | error e => rw [hl] at h; cases h
  | ok st =>
    have hr := parseLines_reads reads_init hl
    rw [hl] at h
    simp only at h
    repeat' split at h
    all_goals try (cases h; done)
    rename_i sites hsites
    cases h
    exact siteOf_resolveSites hr hr.pending hsites

end BareServer
