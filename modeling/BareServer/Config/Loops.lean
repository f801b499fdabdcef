/-
Paths that are redirected to themselves. A prefix rule or the catch-all matches infinitely many paths,
but whether it sends one of them back is decided by finitely many: what its target spells without a
capture, and the repetitions of the tail of its prefix up to the length at which no rule can shadow
one of them without shadowing them all.
-/
import BareServer.Config.RedirectSpec
import BareServer.Config.Template
import BareServer.Lib.Words

namespace BareServer

open BareServer.Lib

/-! ## Shadowing -/

/-- Does an exact rule match the path, or a prefix rule with more than `n` literal bytes? -/
def shadowed (rules : List Rule) (n : Nat) (path : Str) : Bool :=
  rules.any fun
    | (.exact q, _) => q == path
    | (.under q, _) => q.isPrefixOf path && decide (n < q.length)
    | (.all, _) => false

def Pattern.length : Pattern → Nat
  | .exact path => path.length
  | .under pre => pre.length
  | .all => 0

/-- The length of the longest pattern. -/
def reach (rules : List Rule) : Nat := (rules.map fun rule => rule.1.length).foldr max 0

section

variable {rules : List Rule} {path target cap : Str} {n : Nat}

theorem shadowed_false : shadowed rules n path = false ↔
    (∀ t, (.exact path, t) ∉ rules) ∧ ∀ e ∈ underRules rules, e.1 <+: path → e.1.length ≤ n := by
  unfold shadowed
  rw [List.any_eq_false]
  constructor
  · intro h
    constructor
    · intro t ht
      simpa using h _ ht
    · rintro ⟨pre, t⟩ he hp
      have := h _ (mem_underRules.1 he)
      simpa [hp] using this
  · rintro ⟨hexact, hunder⟩ ⟨p | p | _, t⟩ hm
    · have : p ≠ path := fun he => hexact t (he ▸ hm)
      simpa using this
    · simpa using hunder (p, t) (mem_underRules.2 hm)
    · simp

/-- Which rule decides a path, in terms of what shadows it. -/
theorem decides_iff (hne : ∀ e ∈ underRules rules, e.1 ≠ []) : Decides rules path (some (target, cap)) ↔
    ((.exact path, target) ∈ rules ∧ cap = []) ∨
    (∃ pre, (.under pre, target) ∈ rules ∧ path = pre ++ cap ∧ shadowed rules pre.length path = false) ∨
    ((.all, target) ∈ rules ∧ cap = path ∧ shadowed rules 0 path = false) := by
  constructor
  · rintro (rule | ⟨noExact, rule⟩ | ⟨noExact, noUnder, rule⟩)
    · exact .inl ⟨rule, rfl⟩
    · exact .inr (.inl ⟨_, mem_underRules.1 rule.mem, rule.split, shadowed_false.2 ⟨noExact, rule.longest⟩⟩)
    · exact .inr (.inr ⟨rule, rfl, shadowed_false.2 ⟨noExact, fun e he hp => absurd hp (noUnder e he)⟩⟩)
  · rintro (⟨rule, rfl⟩ | ⟨pre, rule, hsplit, hs⟩ | ⟨rule, rfl, hs⟩)
    · exact .exact rule
    · rw [shadowed_false] at hs
      exact .under hs.1 ⟨mem_underRules.2 rule, hsplit, hs.2⟩
    · rw [shadowed_false] at hs
      refine .all hs.1 (fun e he hp => ?_) rule
      exact hne e he (List.length_eq_zero_iff.1 (by have := hs.2 e he hp; omega))

theorem length_le_reach {rule : Rule} (h : rule ∈ rules) : rule.1.length ≤ reach rules := by
  unfold reach
  induction rules with
  | nil => cases h
  | cons r rules ih =>
    rw [List.map_cons, List.foldr_cons]
    rcases List.mem_cons.1 h with rfl | h
    · exact Nat.le_max_left _ _
    · exact (ih h).trans (Nat.le_max_right _ _)

theorem any_congr_mem {α : Type} {l : List α} {p q : α → Bool} (h : ∀ a ∈ l, p a = q a) : l.any p = l.any q := by
  induction l with
  | nil => rfl
  | cons a l ih =>
    rw [List.any_cons, List.any_cons, h a List.mem_cons_self, ih fun b hb => h b (List.mem_cons_of_mem _ hb)]

/-- Beyond the longest pattern, a path and its extensions are shadowed alike. -/
theorem shadowed_of_prefix {longer : Str} (hp : path <+: longer) (hlen : reach rules < path.length) :
    shadowed rules n path = shadowed rules n longer := by
  unfold shadowed
  refine any_congr_mem ?_
  rintro ⟨p | p | _, t⟩ hm
  · have hle : p.length ≤ reach rules := length_le_reach hm
    have hlong := hp.length_le
    have h1 : p ≠ path := fun he => by rw [he] at hle; omega
    have h2 : p ≠ longer := fun he => by rw [he] at hle; omega
    simp [h1, h2]
  · have hle : p.length ≤ reach rules := length_le_reach hm
    have hiff : p <+: path ↔ p <+: longer :=
      ⟨fun h => h.trans hp, fun h => List.prefix_of_prefix_length_le h hp (by omega)⟩
    have : p.isPrefixOf path = p.isPrefixOf longer := by
      rw [Bool.eq_iff_iff, List.isPrefixOf_iff_prefix, List.isPrefixOf_iff_prefix, hiff]
    simp only [this]
  · rfl

end

/-! ## The shape of a loop -/

section

variable {path cap : Str}

/-- Bytes up to the first reference. -/
theorem leading_split (ts : List Tok) : ts = (leading ts).map .byte ∨
    ∃ us, ts = (leading ts).map .byte ++ .whole :: us ∨ ts = (leading ts).map .byte ++ .rest :: us := by
  induction ts with
  | nil => exact .inl rfl
  | cons t ts ih =>
    cases t with
    | whole => exact .inr ⟨ts, .inl rfl⟩
    | rest => exact .inr ⟨ts, .inr rfl⟩
    | byte b =>
      rcases ih with h | ⟨us, h | h⟩
      · exact .inl (congrArg (Tok.byte b :: ·) h)
      · exact .inr ⟨us, .inl (congrArg (Tok.byte b :: ·) h)⟩
      · exact .inr ⟨us, .inr (congrArg (Tok.byte b :: ·) h)⟩

/-- Nothing is filled in where the path and the capture are not empty, except by no tokens. -/
theorem eq_nil_of_fill {ts : List Tok} (hp : path ≠ []) (hc : cap ≠ []) (h : fill path cap ts = []) : ts = [] := by
  cases ts with
  | nil => rfl
  | cons t ts =>
    rw [fill_cons, List.append_eq_nil_iff] at h
    cases t with
    | byte b => exact absurd h.1 (by simp [Tok.fill])
    | whole => exact absurd h.1 hp
    | rest => exact absurd h.1 hc

/-- What fills in shorter than the path and the capture holds neither. -/
theorem bytes_of_short {ts : List Tok} (hp : (fill path cap ts).length < path.length)
    (hc : (fill path cap ts).length < cap.length) : ts = (leading ts).map .byte := by
  have hle : ∀ (s : Str) (as us : List Tok), s.length ≤ (fill path cap as ++ (s ++ fill path cap us)).length := by
    intro s as us
    simp only [List.length_append]
    omega
  rcases leading_split ts with h | ⟨us, h | h⟩
  · exact h
  · rw [h, fill_append, fill_cons] at hp
    exact absurd hp (Nat.not_lt.2 (hle path _ us))
  · rw [h, fill_append, fill_cons] at hc
    exact absurd hc (Nat.not_lt.2 (hle cap _ us))

end

theorem bare_probe : Bare (str "/probe") := by
  have hall : (str "/probe").all (fun b => !endsPath b) = true := by decide
  intro b hb
  simpa using List.all_eq_true.1 hall b hb

/-- The catch-all loops at one path at most: its target as it is written. -/
theorem loops_all {target path : Str} (hne : path ≠ []) (hok : PatternOk .all target)
    (h : loopsForever target path path = true) : path = leading (pathToks target) := by
  obtain ⟨habs, hbare, hfill⟩ := (loopsForever_iff id).1 h
  have hsingle : ∀ t, t = Tok.whole ∨ t = Tok.rest → pathToks target ≠ [t] := by
    -- a single reference returns every path, the probe too
    intro t ht hts
    have : loopsForever target (str "/probe") (str "/probe") = true :=
      (loopsForever_iff id).2 ⟨habs, bare_probe, by rw [hts]; rcases ht with rfl | rfl <;> rfl⟩
    rw [show loopsForever target (str "/probe") (str "/probe") = false from hok] at this
    cases this
  have hlen : ∀ us t, t = Tok.whole ∨ t = Tok.rest →
      pathToks target ≠ (leading (pathToks target)).map .byte ++ t :: us := by
    intro us t ht hts
    rw [hts, fill_append, fill_cons, fill_bytes] at hfill
    have htok : t.fill path path = path := by rcases ht with rfl | rfl <;> rfl
    have hl := congrArg List.length hfill
    simp only [htok, List.length_append] at hl
    have hlead : leading (pathToks target) = [] := List.length_eq_zero_iff.1 (by omega)
    have hus : us = [] := eq_nil_of_fill hne hne (List.length_eq_zero_iff.1 (by omega))
    rw [hlead, hus] at hts
    exact hsingle t ht hts
  rcases leading_split (pathToks target) with hts | ⟨us, hts | hts⟩
  · rw [hts, fill_bytes] at hfill
    exact hfill.symm
  · exact absurd hts (hlen us _ (.inl rfl))
  · exact absurd hts (hlen us _ (.inr rfl))

/-- How a prefix rule can send a path back: by what its target spells, at the prefix itself, or by a
capture that repeats the tail of the prefix. A long one of these has shorter ones. -/
inductive UnderLoop (pre target x : Str) : Prop
  | literal (eq : x = (leading (pathToks target)).drop pre.length)
  | empty (eq : x = [])
  | tail (c b : Str) (ne : c ≠ []) (pre_eq : pre = leading (pathToks target) ++ c) (shift : x ++ b = c ++ x)
      (shorter : c.length < x.length → ∀ y, y <+: x → y ++ b = c ++ y → loopsForever target (pre ++ y) y = true)

theorem loops_under {pre target x : Str} (hok : UnderOk pre target) (h : loopsForever target (pre ++ x) x = true) :
    UnderLoop pre target x := by
  have hsub : ∀ {p c : Str}, Bare (p ++ c) → Bare c := fun h => h.subset (List.subset_append_right _ _)
  obtain ⟨habs, hbare, hfill⟩ := (loopsForever_iff hsub).1 h
  have hprobe : fill (pre ++ str "probe") (str "probe") (pathToks target) ≠ pre ++ str "probe" := by
    intro hf
    have hb : Bare (pre ++ str "probe") := fun b hb => (List.mem_append.1 hb).elim
      (fun hb => hbare b (List.mem_append_left _ hb)) (fun hb => bare_probe b (List.mem_cons_of_mem _ hb))
    have := (loopsForever_iff hsub).2 ⟨habs, hb, hf⟩
    rw [hok.moves] at this
    cases this
  by_cases hx : x = []
  · exact .empty hx
  have hpx : pre ++ x ≠ [] := by simp [hx]
  rcases leading_split (pathToks target) with hts | ⟨us, hts | hts⟩
  · rw [hts, fill_bytes] at hfill
    exact .literal (by rw [hfill, List.drop_left])
  · -- the whole path, and nothing else
    rw [hts, fill_append, fill_cons, fill_bytes, Tok.fill] at hfill
    have hl := congrArg List.length hfill
    simp only [List.length_append] at hl
    have hlead : leading (pathToks target) = [] := List.length_eq_zero_iff.1 (by omega)
    have hus : us = [] := eq_nil_of_fill hpx hx (List.length_eq_zero_iff.1 (by omega))
    rw [hts, hlead, hus] at hprobe
    exact absurd (by simp [Tok.fill]) hprobe
  · -- the capture between two texts that make up the prefix
    rw [hts, fill_append, fill_cons, fill_bytes, Tok.fill] at hfill
    have hl := congrArg List.length hfill
    simp only [List.length_append] at hl
    obtain ⟨c, hc⟩ := List.prefix_of_prefix_length_le ⟨_, hfill⟩ (List.prefix_append pre x) (by omega)
    have hshift : x ++ fill (pre ++ x) x us = c ++ x := by
      have hassoc := hfill.trans (congrArg (· ++ x) hc.symm)
      rw [List.append_assoc] at hassoc
      exact List.append_cancel_left hassoc
    by_cases hc0 : c = []
    · subst hc0
      have hus : us = [] := eq_nil_of_fill hpx hx (List.append_cancel_left (hshift.trans (List.append_nil x).symm))
      rw [hts, hus, ← hc] at hprobe
      exact absurd (by simp [Tok.fill]) hprobe
    · refine .tail c _ hc0 hc.symm hshift fun hlt y hy hshift' => ?_
      have hlen := congrArg List.length hshift
      simp only [List.length_append] at hlen
      have hlp : (fill (pre ++ x) x us).length < (pre ++ x).length := by rw [List.length_append]; omega
      have hus := bytes_of_short hlp (by omega)
      rw [hus, fill_bytes] at hshift'
      have hb : Bare (pre ++ y) := hbare.subset (List.append_subset.2
        ⟨List.subset_append_left _ _, fun b hb => List.mem_append_right _ (hy.subset hb)⟩)
      refine (loopsForever_iff hsub).2 ⟨habs, hb, ?_⟩
      rw [hts, hus, fill_append, fill_cons, fill_bytes, fill_bytes, Tok.fill, hshift', ← List.append_assoc, hc]

/-! ## Probing -/

/-- The captures that decide whether a prefix rule sends a path back. -/
def remainders (rules : List Rule) (pre target : Str) : List Str :=
  let lead := leading (pathToks target)
  lead.drop pre.length :: (List.range (reach rules + pre.length + 1)).map (cyclic (pre.drop lead.length))

/-- At every probe of every rule, the rule moves the path or another rule shadows it there. Exact rules
need no probe. -/
def probed (rules : List Rule) : Bool :=
  rules.all fun
    | (.exact _, _) => true
    | (.under pre, target) => (remainders rules pre target).all fun x =>
      !loopsForever target (pre ++ x) x || shadowed rules pre.length (pre ++ x)
    | (.all, target) =>
      let path := leading (pathToks target)
      !(str "/").isPrefixOf path || !loopsForever target path path || shadowed rules 0 path

/-- A capture with which a prefix rule decides a path and sends it back. -/
structure LoopsAt (rules : List Rule) (pre target x : Str) : Prop where
  loops : loopsForever target (pre ++ x) x = true
  decides : shadowed rules pre.length (pre ++ x) = false

/-- Where a prefix rule sends back any path it decides, it sends back a probed one. -/
theorem LoopsAt.probe {rules : List Rule} {pre target x : Str} (hok : UnderOk pre target)
    (h : LoopsAt rules pre target x) : ∃ y ∈ remainders rules pre target, LoopsAt rules pre target y := by
  induction hn : x.length using Nat.strong_induction_on generalizing x with
  | _ n ih =>
    have hmem : ∀ k ≤ reach rules + pre.length, cyclic (pre.drop (leading (pathToks target)).length) k ∈
        remainders rules pre target := fun k hk =>
      List.mem_cons_of_mem _ (List.mem_map_of_mem (List.mem_range.2 (by omega)))
    rcases loops_under hok h.loops with heq | heq | ⟨c, b, hc, hpre, hshift, hshorter⟩
    · exact ⟨x, by rw [heq]; exact List.mem_cons_self, h⟩
    · refine ⟨x, ?_, h⟩
      have := hmem 0 (Nat.zero_le _)
      rw [heq]
      simpa [cyclic] using this
    · have hcyc : x = cyclic (pre.drop (leading (pathToks target)).length) x.length := by
        conv_rhs => rw [hpre, List.drop_left]
        exact eq_cyclic hc ⟨b, hshift⟩
      by_cases hle : x.length ≤ reach rules + pre.length
      · exact ⟨x, hcyc ▸ hmem x.length hle, h⟩
      · -- one copy less of the tail, still beyond every pattern
        have hclen : c.length ≤ pre.length := by rw [hpre, List.length_append]; omega
        obtain ⟨y, hy, hpy, hshift'⟩ := descend hshift (by omega)
        have hlen : x.length = c.length + y.length := by rw [hy, List.length_append]
        have hpos : 0 < c.length := List.length_pos_iff.2 hc
        refine ih y.length (by omega) ⟨hshorter (by omega) y hpy hshift', ?_⟩ rfl
        rw [← h.decides]
        exact shadowed_of_prefix ((List.prefix_append_right_inj pre).2 hpy) (by rw [List.length_append]; omega)

/-- Some rule that decides a path sends it back. -/
def SelfRedirect (rules : List Rule) : Prop :=
  ∃ path target cap, str "/" <+: path ∧ Decides rules path (some (target, cap)) ∧ loopsForever target path cap = true

/-- Acceptable rules send no path back exactly when their probes do not. -/
theorem selfRedirect_iff {rules : List Rule} (hok : ∀ rule ∈ rules, Acceptable rule) :
    SelfRedirect rules ↔ probed rules = false := by
  have hrooted : ∀ {pre t}, (.under pre, t) ∈ rules → UnderOk pre t := fun hm => (hok _ hm).pattern
  have hslash : ∀ {s : Str}, str "/" <+: s → s ≠ [] := by
    rintro s hs rfl
    exact absurd hs (by decide)
  have hne : ∀ e ∈ underRules rules, e.1 ≠ [] := fun e he => hslash (hrooted (mem_underRules.1 he)).rooted
  unfold probed
  rw [List.all_eq_false]
  constructor
  · rintro ⟨path, target, cap, hroot, hd, hloop⟩
    rcases (decides_iff hne).1 hd with ⟨rule, rfl⟩ | ⟨pre, rule, rfl, hs⟩ | ⟨rule, rfl, hs⟩
    · -- the check of an exact rule is exact
      have := ((hok _ rule).pattern : ExactOk path target).moves
      rw [this] at hloop
      cases hloop
    · -- some probe loops where this path does
      obtain ⟨y, hy, hprobe⟩ := LoopsAt.probe (hrooted rule) ⟨hloop, hs⟩
      refine ⟨_, rule, ?_⟩
      rw [Bool.not_eq_true, List.all_eq_false]
      exact ⟨y, hy, by simp [hprobe.loops, hprobe.decides]⟩
    · have hlead := loops_all (hslash hroot) (hok _ rule).pattern hloop
      refine ⟨_, rule, ?_⟩
      simp only [← hlead]
      simp [hloop, hs, hroot]
  · rintro ⟨⟨p | pre | _, target⟩, rule, h⟩
    · exact absurd rfl h
    · rw [Bool.not_eq_true, List.all_eq_false] at h
      obtain ⟨x, -, hx⟩ := h
      simp only [Bool.or_eq_true, Bool.not_eq_true', not_or, Bool.not_eq_false, Bool.not_eq_true] at hx
      refine ⟨pre ++ x, target, x, ?_, (decides_iff hne).2 (.inr (.inl ⟨pre, rule, rfl, hx.2⟩)), hx.1⟩
      exact (hrooted rule).rooted.trans (List.prefix_append _ _)
    · simp only [Bool.or_eq_true, Bool.not_eq_true', not_or, Bool.not_eq_false, Bool.not_eq_true,
        List.isPrefixOf_iff_prefix] at h
      exact ⟨_, target, _, h.1.1, (decides_iff hne).2 (.inr (.inr ⟨rule, rfl, h.2⟩)), h.1.2⟩

namespace Redirects

/-- Accepted rules send no path to itself exactly when their probes do not. -/
theorem pushLines_noSelfRedirect {lines : List (Str × Str)} {r : Redirects} (h : pushLines default lines = .ok r) :
    (∀ path dest target cap, str "/" <+: path → r.finish.resolve path = some dest →
      Decides (rulesOf lines) path (some (target, cap)) → isAbsolute target = false → bareOf dest ≠ path) ↔
    probed (rulesOf lines) = true := by
  have hok := ((pushLines_ok records_nil).1 ⟨r, h⟩).1
  have hrec := pushLines_records records_nil h
  rw [← Bool.not_eq_false, ← selfRedirect_iff hok]
  constructor
  · rintro hp ⟨path, target, cap, hroot, hd, hloop⟩
    obtain ⟨habs, heq⟩ := loopsForever_eq.1 hloop
    obtain ⟨d, hd', hres⟩ := hrec.resolve_finish path
    rw [hd'.unique hrec.nodup hd] at hres
    exact hp path _ target cap hroot hres hd habs heq
  · intro hno path dest target cap hroot hres hd habs heq
    obtain ⟨d, hd', hres'⟩ := hrec.resolve_finish path
    rw [hd'.unique hrec.nodup hd, hres] at hres'
    cases hres'
    exact hno ⟨path, target, cap, hroot, hd, loopsForever_eq.2 ⟨habs, heq⟩⟩

/-- The three kinds of rule, none of which sends a path to itself. -/
theorem pushLines_noSelfRedirect_documented :
    probed (rulesOf [(str "/old", str "/new"), (str "/docs/*", str "/help/$1"), (str "*", str "https://a.b$0")]) = true ∧
    ∃ r, pushLines default
        [(str "/old", str "/new"), (str "/docs/*", str "/help/$1"), (str "*", str "https://a.b$0")] = .ok r ∧
      ∀ path dest target cap, str "/" <+: path → r.finish.resolve path = some dest →
        Decides (rulesOf [(str "/old", str "/new"), (str "/docs/*", str "/help/$1"), (str "*", str "https://a.b$0")])
          path (some (target, cap)) → isAbsolute target = false → bareOf dest ≠ path :=
  have h : probed (rulesOf [(str "/old", str "/new"), (str "/docs/*", str "/help/$1"), (str "*", str "https://a.b$0")]) =
    true := by decide +kernel
  ⟨h, _, rfl, (pushLines_noSelfRedirect rfl).2 h⟩

/-- A host that sends everything to its home page sends the home page to itself. -/
theorem home_redirects_to_itself : ∃ r, pushLines default [(str "*", str "/home")] = .ok r ∧
    r.finish.resolve (str "/home") = some (str "/home") ∧
    Decides (rulesOf [(str "*", str "/home")]) (str "/home") (some (str "/home", str "/home")) ∧
    isAbsolute (str "/home") = false ∧ bareOf (str "/home") = str "/home" := by
  have hrules : rulesOf [(str "*", str "/home")] = [(.all, str "/home")] := rfl
  refine ⟨_, rfl, by decide, ?_, by decide, by decide⟩
  rw [hrules]
  exact .all (by simp) (by simp [underRules]) (by simp)

end Redirects
end BareServer
