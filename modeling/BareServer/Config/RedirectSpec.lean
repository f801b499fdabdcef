/-
Redirect rules as an operator reads them: patterns by form, the rule that decides a path, and what
recording a list of rules gives. The order of the rules does not count: each is accepted for its own
sake, and the most specific one decides.
-/
import BareServer.Config.Redirects
import BareServer.Lib.Prefix

namespace BareServer

open BareServer.Lib

/-! ## Rules -/

/-- A rule's pattern by form: a whole path, `/docs/` for `/docs/*`, or every path. -/
inductive Pattern where
  | exact (path : Str)
  | under (pre : Str)
  | all
  deriving DecidableEq

/-- A pattern as it is written. -/
def Pattern.ofText (s : Str) : Pattern :=
  if s == str "*" then .all
  else
    match (str "*").isSuffixOf? s with
    | some pre => .under pre
    | none => .exact s

/-- A rule: its pattern and its target. -/
abbrev Rule := Pattern × Str

/-- The rules of a list of `redirect <pattern> -> <target>` lines. -/
def rulesOf (lines : List (Str × Str)) : List Rule := lines.map fun l => (Pattern.ofText l.1, l.2)

/-- The prefix rules among some rules. -/
def underRules (rules : List Rule) : List (Str × Str) :=
  rules.filterMap fun
    | (.under pre, t) => some (pre, t)
    | _ => none

/-- The rule that decides a path: the exact one, else the one with the longest literal prefix, else
the catch-all. The decision is the rule's target and what it captures. -/
inductive Decides (rules : List Rule) (path : Str) : Option (Str × Str) → Prop
  | exact {t : Str} (rule : (.exact path, t) ∈ rules) : Decides rules path (some (t, []))
  | under {pre t rest : Str} (noExact : ∀ t, (.exact path, t) ∉ rules)
      (rule : Longest (underRules rules) path pre t rest) : Decides rules path (some (t, rest))
  | all {t : Str} (noExact : ∀ t, (.exact path, t) ∉ rules) (noUnder : ∀ e ∈ underRules rules, ¬ e.1 <+: path)
      (rule : (.all, t) ∈ rules) : Decides rules path (some (t, path))
  | none (noExact : ∀ t, (.exact path, t) ∉ rules) (noUnder : ∀ e ∈ underRules rules, ¬ e.1 <+: path)
      (noAll : ∀ t, (.all, t) ∉ rules) : Decides rules path none

theorem mem_underRules {rules : List Rule} {pre t : Str} : (pre, t) ∈ underRules rules ↔ (.under pre, t) ∈ rules := by
  unfold underRules
  rw [List.mem_filterMap]
  constructor
  · rintro ⟨⟨p | p | _, t'⟩, hm, h⟩
    · cases h
    · cases h; exact hm
    · cases h
  · intro hm
    exact ⟨_, hm, rfl⟩

/-- Distinct patterns give distinct prefixes. -/
theorem nodup_underRules {rules : List Rule} (h : (rules.map Prod.fst).Nodup) :
    ((underRules rules).map Prod.fst).Nodup := by
  have hmap : (underRules rules).map Prod.fst = (rules.map Prod.fst).filterMap fun
      | .under pre => some pre
      | _ => none := by
    rw [underRules, List.map_filterMap, List.filterMap_map]
    congr 1
    funext ⟨p, t⟩
    cases p <;> rfl
  rw [hmap]
  apply h.filterMap
  rintro (p | p | _) (q | q | _) b h1 h2 <;> simp_all

namespace Decides

variable {rules rules' : List Rule} {path : Str} {d d' : Option (Str × Str)}

/-- Only the rules count, not their order. -/
theorem of_mem_iff (hmem : ∀ e, e ∈ rules ↔ e ∈ rules') (h : Decides rules path d) : Decides rules' path d := by
  have hunder : ∀ e, e ∈ underRules rules ↔ e ∈ underRules rules' := by
    rintro ⟨pre, t⟩
    rw [mem_underRules, mem_underRules, hmem]
  cases h with
  | exact rule => exact .exact ((hmem _).1 rule)
  | under noExact rule => exact .under (fun t ht => noExact t ((hmem _).2 ht)) (rule.of_mem_iff hunder)
  | all noExact noUnder rule =>
    exact .all (fun t ht => noExact t ((hmem _).2 ht)) (fun e he => noUnder e ((hunder e).2 he)) ((hmem _).1 rule)
  | none noExact noUnder noAll =>
    exact .none (fun t ht => noExact t ((hmem _).2 ht)) (fun e he => noUnder e ((hunder e).2 he))
      (fun t ht => noAll t ((hmem _).2 ht))

theorem prefix_of_longest {pre t rest : Str} (h : Longest (underRules rules) path pre t rest) :
    ∃ e ∈ underRules rules, e.1 <+: path := ⟨_, h.mem, ⟨rest, h.split.symm⟩⟩

/-- A decision is some rule's. -/
theorem rule {t cap : Str} (h : Decides rules path (some (t, cap))) : ∃ p, (p, t) ∈ rules := by
  cases h with
  | exact rule => exact ⟨_, rule⟩
  | under _ rule => exact ⟨_, mem_underRules.1 rule.mem⟩
  | all _ _ rule => exact ⟨_, rule⟩

/-- With distinct patterns there is one decision. -/
theorem unique (hnodup : (rules.map Prod.fst).Nodup) (h : Decides rules path d) (h' : Decides rules path d') :
    d = d' := by
  have hsame : ∀ {p : Pattern} {t t' : Str}, (p, t) ∈ rules → (p, t') ∈ rules → t = t' := fun ht ht' =>
    congrArg Prod.snd (List.inj_on_of_nodup_map hnodup ht ht' rfl)
  cases h with
  | exact rule =>
    cases h' with
    | exact rule' => rw [hsame rule rule']
    | under noExact _ => exact absurd rule (noExact _)
    | all noExact _ _ => exact absurd rule (noExact _)
    | none noExact _ _ => exact absurd rule (noExact _)
  | under noExact rule =>
    obtain ⟨e, he, hp⟩ := prefix_of_longest rule
    cases h' with
    | exact rule' => exact absurd rule' (noExact _)
    | under _ rule' =>
      obtain ⟨rfl, rfl⟩ := rule.unique (nodup_underRules hnodup) rule'
      rfl
    | all _ noUnder _ => exact absurd hp (noUnder e he)
    | none _ noUnder _ => exact absurd hp (noUnder e he)
  | all noExact noUnder rule =>
    cases h' with
    | exact rule' => exact absurd rule' (noExact _)
    | under _ rule' =>
      obtain ⟨e, he, hp⟩ := prefix_of_longest rule'
      exact absurd hp (noUnder e he)
    | all _ _ rule' => rw [hsame rule rule']
    | none _ _ noAll => exact absurd rule (noAll _)
  | none noExact noUnder noAll =>
    cases h' with
    | exact rule' => exact absurd rule' (noExact _)
    | under _ rule' =>
      obtain ⟨e, he, hp⟩ := prefix_of_longest rule'
      exact absurd hp (noUnder e he)
    | all _ _ rule' => exact absurd rule' (noAll _)
    | none _ _ _ => rfl

end Decides

/-! ## Acceptance -/

/-- The checks on a target that belong to its pattern. -/
structure UnderOk (pre target : Str) : Prop where
  rooted : str "/" <+: pre
  noStar : 42 ∉ pre
  slash : str "/" <:+ pre
  moves : loopsForever target (pre ++ str "probe") (str "probe") = false

structure ExactOk (path target : Str) : Prop where
  rooted : str "/" <+: path
  noStar : 42 ∉ path
  moves : loopsForever target path [] = false
  noCapture : containsStr target (str "$1") = false

def PatternOk : Pattern → Str → Prop
  | .exact path, target => ExactOk path target
  | .under pre, target => UnderOk pre target
  | .all, target => loopsForever target (str "/probe") (str "/probe") = false

/-- A rule is acceptable whatever rules stand around it. -/
structure Acceptable (rule : Rule) : Prop where
  target : Redirects.checkTarget rule.2 = .ok ()
  pattern : PatternOk rule.1 rule.2

namespace Redirects

/-- Is there a rule of this pattern already? -/
def has (r : Redirects) : Pattern → Bool
  | .exact path => (r.exact.lookup path).isSome
  | .under pre => r.prefixes.any (·.1 == pre)
  | .all => r.all.isSome

/-- The rules with one more. -/
def put (r : Redirects) (rule : Rule) : Redirects :=
  match rule.1 with
  | .exact path => { r with exact := r.exact.insert path rule.2 }
  | .under pre => { r with prefixes := r.prefixes ++ [(pre, rule.2)] }
  | .all => { r with all := some rule.2 }

/-- Record the lines of a block in order. -/
def pushLines (r : Redirects) : List (Str × Str) → Except Str Redirects
  | [] => .ok r
  | (pattern, target) :: rest =>
    match r.push pattern target with
    | .error e => .error e
    | .ok r' => pushLines r' rest

theorem ite_error_ok {ε α : Type} {c : Prop} [Decidable c] {e : ε} {x : Except ε α} {a : α} :
    (if c then .error e else x) = .ok a ↔ ¬ c ∧ x = .ok a := by
  split
  · rename_i h; simp [h]
  · rename_i h; simp [h]

theorem pushAll_ok {r r' : Redirects} {target : Str} : r.pushAll target = .ok r' ↔
    PatternOk .all target ∧ r.has .all = false ∧ r' = r.put (.all, target) := by
  unfold pushAll PatternOk has put
  rw [ite_error_ok, ite_error_ok, Except.ok.injEq, eq_comm (b := r')]
  simp only [Bool.not_eq_true]

theorem pushPrefix_ok {r r' : Redirects} {pattern pre target : Str} (hroot : str "/" <+: pre) :
    r.pushPrefix pattern pre target = .ok r' ↔
      PatternOk (.under pre) target ∧ r.has (.under pre) = false ∧ r' = r.put (.under pre, target) := by
  unfold pushPrefix PatternOk has put
  rw [ite_error_ok, ite_error_ok, ite_error_ok, Except.ok.injEq, eq_comm (b := r')]
  simp only [Bool.or_eq_true, List.contains_eq_mem, decide_eq_true_eq, Bool.not_eq_eq_eq_not, Bool.not_true, not_or,
    Bool.not_eq_false, Bool.not_eq_true, List.isSuffixOf_iff_suffix]
  constructor
  · rintro ⟨⟨hstar, hslash⟩, hmoves, hnew, hput⟩
    exact ⟨⟨hroot, hstar, hslash, hmoves⟩, hnew, hput⟩
  · rintro ⟨hok, hnew, hput⟩
    exact ⟨⟨hok.noStar, hok.slash⟩, hok.moves, hnew, hput⟩

theorem pushExact_ok {r r' : Redirects} {pattern target : Str} (hroot : str "/" <+: pattern) :
    r.pushExact pattern target = .ok r' ↔
      PatternOk (.exact pattern) target ∧ r.has (.exact pattern) = false ∧ r' = r.put (.exact pattern, target) := by
  unfold pushExact PatternOk has put
  rw [ite_error_ok, ite_error_ok, ite_error_ok, ite_error_ok, Except.ok.injEq, eq_comm (b := r')]
  simp only [List.contains_eq_mem, decide_eq_true_eq, Bool.not_eq_true]
  constructor
  · rintro ⟨hstar, hmoves, hcap, hnew, hput⟩
    exact ⟨⟨hroot, hstar, hmoves, hcap⟩, hnew, hput⟩
  · rintro ⟨hok, hnew, hput⟩
    exact ⟨hok.noStar, hok.moves, hok.noCapture, hnew, hput⟩

/-- A rule is recorded when it is acceptable by itself and its pattern is new. -/
theorem push_ok {r r' : Redirects} {pattern target : Str} : r.push pattern target = .ok r' ↔
    Acceptable (.ofText pattern, target) ∧ r.has (.ofText pattern) = false ∧ r' = r.put (.ofText pattern, target) := by
  unfold push
  cases hc : checkTarget target with
  | error e =>
    simp only [reduceCtorEq, false_iff, not_and]
    intro hok
    have := hok.target
    simp only [hc, reduceCtorEq] at this
  | ok u =>
    have hiff : ∀ p, Acceptable (p, target) ↔ PatternOk p target := fun p => ⟨(·.pattern), fun h => ⟨hc, h⟩⟩
    rw [hiff]
    by_cases hstar : pattern = str "*"
    · subst hstar
      exact pushAll_ok
    · simp only [beq_iff_eq, hstar, if_false, ite_error_ok, Bool.not_eq_true', Bool.not_eq_false,
        List.isPrefixOf_iff_prefix, Pattern.ofText]
      cases hs : (str "*").isSuffixOf? pattern with
      | none =>
        constructor
        · rintro ⟨hroot, hok⟩
          exact (pushExact_ok hroot).1 hok
        · intro hok
          exact ⟨hok.1.rooted, (pushExact_ok hok.1.rooted).2 hok⟩
      | some pre =>
        have hsplit := List.isSuffixOf?_eq_some_iff_append_eq.1 hs
        -- the pattern is not `*` alone, so the slash it starts with is the prefix's own
        have hroot : str "/" <+: pattern → str "/" <+: pre := by
          subst hsplit
          refine (slash_prefix_append ?_ _).1
          rintro rfl
          exact hstar rfl
        constructor
        · rintro ⟨hp, hok⟩
          exact (pushPrefix_ok (hroot hp)).1 hok
        · intro hok
          exact ⟨hok.1.rooted.trans ⟨_, hsplit⟩, (pushPrefix_ok hok.1.rooted).2 hok⟩

/-! ## Recorded rules -/

/-- What is recorded is these rules, each pattern once. -/
structure Records (r : Redirects) (rules : List Rule) : Prop where
  nodup : (rules.map Prod.fst).Nodup
  exact : ∀ path t, r.exact.lookup path = some t ↔ (.exact path, t) ∈ rules
  prefixes : r.prefixes.Perm (underRules rules)
  all : ∀ t, r.all = some t ↔ (.all, t) ∈ rules

theorem records_nil : Records default [] := by
  constructor
  · exact List.nodup_nil
  · simp [default]
  · rfl
  · simp [default]

theorem Records.has_iff {r : Redirects} {rules : List Rule} (h : r.Records rules) (p : Pattern) :
    r.has p = true ↔ p ∈ rules.map Prod.fst := by
  rw [List.mem_map]
  cases p with
  | exact path =>
    simp only [has, Option.isSome_iff_exists, h.exact]
    exact ⟨fun ⟨t, ht⟩ => ⟨_, ht, rfl⟩, fun ⟨⟨p, t⟩, ht, hp⟩ => ⟨t, by cases hp; exact ht⟩⟩
  | under pre =>
    simp only [has, List.any_eq_true, beq_iff_eq, h.prefixes.mem_iff]
    constructor
    · rintro ⟨⟨pre', t⟩, ht, rfl⟩
      exact ⟨_, mem_underRules.1 ht, rfl⟩
    · rintro ⟨⟨p, t⟩, ht, rfl⟩
      exact ⟨(pre, t), mem_underRules.2 ht, rfl⟩
  | all =>
    simp only [has, Option.isSome_iff_exists, h.all]
    exact ⟨fun ⟨t, ht⟩ => ⟨_, ht, rfl⟩, fun ⟨⟨p, t⟩, ht, hp⟩ => ⟨t, by cases hp; exact ht⟩⟩

/-- A rule of a new pattern joins the rules recorded. -/
theorem Records.put {r : Redirects} {rules : List Rule} {rule : Rule} (h : r.Records rules)
    (hnew : r.has rule.1 = false) : (r.put rule).Records (rules ++ [rule]) := by
  have hmem : rule.1 ∉ rules.map Prod.fst := fun hm => by rw [(h.has_iff _).2 hm] at hnew; cases hnew
  have hnodup : ((rules ++ [rule]).map Prod.fst).Nodup := by
    rw [List.map_append, List.map_singleton]
    exact List.nodup_append.2 ⟨h.nodup, List.nodup_singleton _, fun a ha b hb => by
      rw [List.mem_singleton.1 hb]
      rintro rfl
      exact hmem ha⟩
  obtain ⟨p, target⟩ := rule
  cases p with
  | exact q =>
    refine ⟨hnodup, fun path t => ?_, ?_, fun t => ?_⟩
    · simp only [Redirects.put, Map.lookup_insert', List.mem_append, List.mem_singleton, Prod.mk.injEq,
        Pattern.exact.injEq]
      by_cases hq : path = q
      · subst hq
        have : (.exact path, t) ∉ rules := fun hm => hmem (List.mem_map.2 ⟨_, hm, rfl⟩)
        simp [this, eq_comm]
      · simp [hq, h.exact]
    · simpa [Redirects.put, underRules] using h.prefixes
    · simp [Redirects.put, h.all]
  | under pre =>
    refine ⟨hnodup, fun path t => ?_, ?_, fun t => ?_⟩
    · simp [Redirects.put, h.exact]
    · simpa [Redirects.put, underRules] using h.prefixes.append_right [(pre, target)]
    · simp [Redirects.put, h.all]
  | all =>
    refine ⟨hnodup, fun path t => ?_, ?_, fun t => ?_⟩
    · simp [Redirects.put, h.exact]
    · simpa [Redirects.put, underRules] using h.prefixes
    · have : (.all, t) ∉ rules := fun hm => hmem (List.mem_map.2 ⟨_, hm, rfl⟩)
      simp [Redirects.put, this, eq_comm]

/-- Lines are recorded when each is acceptable by itself and no pattern comes twice. -/
theorem pushLines_ok {r : Redirects} {rules : List Rule} {lines : List (Str × Str)} (h : r.Records rules) :
    (∃ r', r.pushLines lines = .ok r') ↔
      (∀ rule ∈ rulesOf lines, Acceptable rule) ∧ ((rules ++ rulesOf lines).map Prod.fst).Nodup := by
  induction lines generalizing r rules with
  | nil =>
    simp only [pushLines, rulesOf, List.map_nil, List.append_nil]
    exact ⟨fun _ => ⟨nofun, h.nodup⟩, fun _ => ⟨r, rfl⟩⟩
  | cons line lines ih =>
    obtain ⟨pattern, target⟩ := line
    have hcons : rulesOf ((pattern, target) :: lines) = (.ofText pattern, target) :: rulesOf lines := rfl
    unfold pushLines
    cases hp : r.push pattern target with
    | error e =>
      simp only [reduceCtorEq, exists_const, false_iff, not_and]
      intro hok hnodup
      have hnew : r.has (.ofText pattern) = false := by
        rw [Bool.eq_false_iff, ne_eq, h.has_iff]
        rw [hcons, List.map_append, List.nodup_append] at hnodup
        exact fun hm => hnodup.2.2 _ hm _ List.mem_cons_self rfl
      rw [push_ok.2 ⟨hok _ List.mem_cons_self, hnew, rfl⟩] at hp
      cases hp
    | ok r' =>
      obtain ⟨hok, hnew, rfl⟩ := push_ok.1 hp
      rw [ih (h.put hnew), hcons, List.append_assoc, List.singleton_append]
      simp [hok]

theorem pushLines_records {r r' : Redirects} {rules : List Rule} {lines : List (Str × Str)} (h : r.Records rules)
    (hp : r.pushLines lines = .ok r') : r'.Records (rules ++ rulesOf lines) := by
  induction lines generalizing r rules with
  | nil =>
    cases hp
    simpa [rulesOf] using h
  | cons line lines ih =>
    obtain ⟨pattern, target⟩ := line
    unfold pushLines at hp
    cases hp' : r.push pattern target with
    | error e => rw [hp'] at hp; cases hp
    | ok r'' =>
      rw [hp'] at hp
      obtain ⟨hok, hnew, rfl⟩ := push_ok.1 hp'
      simpa [rulesOf] using ih (h.put hnew) hp

/-! ## Resolution -/

/-- A decision's destination. -/
def destOf (path : Str) (d : Str × Str) : Str := expand d.1 path d.2

/-- The rule that `resolve` takes, and what it captures. -/
def decision (r : Redirects) (path : Str) : Option (Str × Str) :=
  match r.exact.lookup path with
  | some t => some (t, [])
  | none => (scanPrefixes path r.prefixes).or (r.all.map (·, path))

theorem resolvePrefix_eq (path : Str) (prefixes : List (Str × Str)) :
    resolvePrefix path prefixes = (scanPrefixes path prefixes).map (destOf path) := by
  induction prefixes with
  | nil => rfl
  | cons pt prefixes ih =>
    obtain ⟨pre, t⟩ := pt
    unfold resolvePrefix scanPrefixes
    cases pre.isPrefixOf? path with
    | some cap => rfl
    | none => exact ih

theorem resolve_eq (r : Redirects) (path : Str) : r.resolve path = (r.decision path).map (destOf path) := by
  unfold resolve decision
  rw [resolvePrefix_eq]
  cases r.exact.lookup path with
  | some t => rfl
  | none =>
    cases scanPrefixes path r.prefixes with
    | some d => rfl
    | none => cases r.all <;> rfl

theorem finish_sorted (r : Redirects) :
    r.finish.prefixes.Pairwise fun a b => b.1.length ≤ a.1.length := by
  have htotal : Std.Total fun a b : Str × Str => b.1.length ≤ a.1.length := ⟨fun a b => Nat.le_total _ _⟩
  have htrans : IsTrans (Str × Str) fun a b => b.1.length ≤ a.1.length := ⟨fun a b c h1 h2 => le_trans h2 h1⟩
  exact List.pairwise_insertionSort _ _

/-- After `finish` the most specific rule decides. -/
theorem Records.decides {r : Redirects} {rules : List Rule} (h : r.Records rules) (path : Str) :
    Decides rules path (r.finish.decision path) := by
  have hperm : r.finish.prefixes.Perm (underRules rules) := (List.perm_insertionSort _ _).trans h.prefixes
  unfold decision
  cases he : r.finish.exact.lookup path with
  | some t => exact .exact ((h.exact _ _).1 he)
  | none =>
    have noExact : ∀ t, (.exact path, t) ∉ rules := fun t ht => by
      rw [show r.finish.exact.lookup path = some t from (h.exact _ _).2 ht] at he
      cases he
    cases hs : scanPrefixes path r.finish.prefixes with
    | some d =>
      obtain ⟨pre, hl⟩ := scanPrefixes_longest r.finish_sorted hs
      exact .under noExact (hl.of_mem_iff fun _ => hperm.mem_iff)
    | none =>
      have noUnder : ∀ e ∈ underRules rules, ¬ e.1 <+: path := fun e he =>
        scanPrefixes_none hs e (hperm.mem_iff.2 he)
      rw [Option.none_or]
      cases ha : r.finish.all with
      | some t => exact .all noExact noUnder ((h.all t).1 ha)
      | none =>
        refine .none noExact noUnder fun t ht => ?_
        rw [show r.finish.all = some t from (h.all t).2 ht] at ha
        cases ha

/-- After `finish` a path goes where the deciding rule sends it. -/
theorem Records.resolve_finish {r : Redirects} {rules : List Rule} (h : r.Records rules) (path : Str) :
    ∃ d, Decides rules path d ∧ r.finish.resolve path = d.map (destOf path) :=
  ⟨_, h.decides path, r.finish.resolve_eq path⟩

/-- The order of the lines does not count: any other order is accepted too, and every path goes where
the most specific rule sends it. -/
theorem pushLines_perm {lines lines' : List (Str × Str)} (hperm : lines.Perm lines') {r : Redirects}
    (h : pushLines default lines = .ok r) :
    ∃ r', pushLines default lines' = .ok r' ∧ ∀ path, r'.finish.resolve path = r.finish.resolve path ∧
      ∃ d, Decides (rulesOf lines) path d ∧ r.finish.resolve path = d.map fun tc => expand tc.1 path tc.2 := by
  have hrules : (rulesOf lines).Perm (rulesOf lines') := hperm.map _
  have hok := (pushLines_ok records_nil).1 ⟨r, h⟩
  obtain ⟨r', hr'⟩ := (@pushLines_ok default [] lines' records_nil).2
    ⟨fun rule hm => hok.1 rule (hrules.mem_iff.2 hm), ((hrules.map Prod.fst).nodup_iff).1 hok.2⟩
  refine ⟨r', hr', fun path => ?_⟩
  have hrec := pushLines_records records_nil h
  obtain ⟨d, hd, hres⟩ := hrec.resolve_finish path
  obtain ⟨d', hd', hres'⟩ := (pushLines_records records_nil hr').resolve_finish path
  have hsame : d' = d := (hd'.of_mem_iff fun e => hrules.mem_iff.symm).unique hrec.nodup hd
  exact ⟨by rw [hres, hres', hsame], d, hd, hres⟩

/-- Three lines with the least specific first. -/
theorem pushLines_perm_example : ∃ r', pushLines default
      [(str "/docs/*", str "/a/$1"), (str "*", str "/all"), (str "/docs/api/*", str "/b/$1")] = .ok r' ∧
    r'.finish.resolve (str "/docs/api/x") = some (str "/b/x") := by
  obtain ⟨r', h, hr⟩ := @pushLines_perm
    [(str "*", str "/all"), (str "/docs/*", str "/a/$1"), (str "/docs/api/*", str "/b/$1")] _ (.swap _ _ _) _ (by rfl)
  exact ⟨r', h, (hr _).1.trans (by decide)⟩

end Redirects
end BareServer
