/-
The query string over a redirect. A rule's Location is put together by concatenation, with the request's
query last; read as a reference, it carries the query over as long as nothing before it opens a fragment.
-/
import BareServer.Serve.Upgrade

namespace BareServer

open BareServer.Lib

/-! ## References -/

/-- The query of a reference, with its `?`: it ends where the fragment starts. -/
def queryOf (s : Str) : Str := (s.takeWhile (· != 35)).dropWhile (· != 63)

/-- The fragment of a reference, with its `#`. -/
def fragmentOf (s : Str) : Str := s.dropWhile (· != 35)

/-- From its first `c` on, a text is empty or starts with `c`. -/
theorem dropWhile_ne_form (c : UInt8) (s : Str) : s.dropWhile (· != c) = [] ∨ ∃ t, s.dropWhile (· != c) = c :: t := by
  induction s with
  | nil => exact .inl rfl
  | cons b s ih =>
    rw [List.dropWhile_cons]
    split
    · exact ih
    · rename_i hb
      rw [Bool.not_eq_true, bne_eq_false_iff_eq] at hb
      exact .inr ⟨s, by rw [hb]⟩

theorem mem_fragmentOf {s : Str} : 35 ∈ s ↔ fragmentOf s ≠ [] := by
  rw [fragmentOf, ne_eq, List.dropWhile_eq_nil_iff, not_forall]
  constructor
  · exact fun h => ⟨35, by simpa using h⟩
  · rintro ⟨b, hb⟩
    simp only [bne_iff_ne, ne_eq, Classical.not_imp, not_not] at hb
    exact hb.2 ▸ hb.1

/-- A query is empty or starts with its `?`, and holds no `#`. -/
theorem queryOf_form (s : Str) : (queryOf s = [] ∨ ∃ q, queryOf s = 63 :: q) ∧ 35 ∉ queryOf s := by
  refine ⟨dropWhile_ne_form 63 _, fun hm => ?_⟩
  have hall := List.all_takeWhile (l := s) (p := (· != 35))
  exact absurd (List.all_eq_true.1 hall _ ((List.dropWhile_suffix _).subset hm)) (by decide)

theorem fragmentOf_form (s : Str) : fragmentOf s = [] ∨ ∃ f, fragmentOf s = 35 :: f := dropWhile_ne_form 35 s

theorem targetQuery_form (target : Str) : targetQuery target = [] ∨ ∃ q, targetQuery target = 63 :: q :=
  dropWhile_ne_form 63 target

/-- Text before a query and a fragment is the path in front of them. -/
theorem parts_append {a q f : Str} (ha : Bare a) (hq : q = [] ∨ ∃ t, q = 63 :: t) (hq' : 35 ∉ q)
    (hf : f = [] ∨ ∃ t, f = 35 :: t) :
    bareOf (a ++ q ++ f) = a ∧ queryOf (a ++ q ++ f) = q ∧ fragmentOf (a ++ q ++ f) = f := by
  have hno : ∀ b ∈ a ++ q, (b != 35) = true := by
    intro b hb
    rw [bne_iff_ne]
    rintro rfl
    rcases List.mem_append.1 hb with hb | hb
    · exact absurd (ha _ hb) (by decide)
    · exact hq' hb
  have hno' : ∀ b ∈ a, (b != 63) = true := by
    intro b hb
    rw [bne_iff_ne]
    rintro rfl
    exact absurd (ha _ hb) (by decide)
  have hfrag : f.takeWhile (· != 35) = [] ∧ f.dropWhile (· != 35) = f := by
    rcases hf with rfl | ⟨t, rfl⟩ <;> simp
  have hquery : q.dropWhile (· != 63) = q := by
    rcases hq with rfl | ⟨t, rfl⟩ <;> simp
  have hnext : bareOf (q ++ f) = [] := by
    rcases hq with rfl | ⟨t, rfl⟩
    · rcases hf with rfl | ⟨t, rfl⟩ <;> rfl
    · rfl
  refine ⟨?_, ?_, ?_⟩
  · rw [List.append_assoc, bareOf_append ha, hnext, List.append_nil]
  · rw [queryOf, List.takeWhile_append_of_pos hno, hfrag.1, List.append_nil, List.dropWhile_append_of_pos hno', hquery]
  · rw [fragmentOf, List.dropWhile_append_of_pos hno, hfrag.2]

/-- A reference is its path, its query and its fragment. -/
theorem parts_eq (s : Str) : bareOf s ++ queryOf s ++ fragmentOf s = s := by
  have hbare : bareOf s = (s.takeWhile (· != 35)).takeWhile (· != 63) := by
    rw [List.takeWhile_takeWhile]
    unfold bareOf
    congr 1
    funext b
    simp only [endsPath, bne, Bool.not_or, Bool.decide_and, Bool.decide_eq_true, Bool.and_comm]
  rw [hbare, queryOf, fragmentOf, List.takeWhile_append_dropWhile, List.takeWhile_append_dropWhile]

/-! ## The query of a Location -/

/-- What a rule's destination is put after: nothing when it is absolute. -/
def baseOf (site : Site) (vhosts : Vhosts) (hostKey dest : Str) (redirectHttps : Bool) : Str :=
  if isAbsolute dest then []
  else
    (builtOrigin site vhosts hostKey redirectHttps).1 ++ str "://" ++ (builtOrigin site vhosts hostKey redirectHttps).2

/-- The Location has the destination's path and fragment, and its query, or else the request's. -/
structure Carries (base dest query location : Str) : Prop where
  path : bareOf location = base ++ bareOf dest
  query : queryOf location = if queryOf dest = [] then query else queryOf dest
  fragment : fragmentOf location = fragmentOf dest

/-- The destination has a query of its own, or the request has none, or neither has a `#`. -/
structure QueryFits (base dest query : Str) : Prop where
  base : Bare base
  query : queryOf dest ≠ [] ∨ query = [] ∨ 35 ∉ dest ∧ 35 ∉ query

section

variable {base dest query q : Str}

theorem bare_append {s t : Str} (hs : Bare s) (ht : Bare t) : Bare (s ++ t) := fun b hb =>
  (List.mem_append.1 hb).elim (hs b) (ht b)

/-- A delimiter in what stands in front ends the path before the destination. -/
theorem Carries.bare {location : Str} (h : Carries base dest query location) : Bare base := fun b hb =>
  bareOf_bare location b (by rw [h.path]; exact List.mem_append_left _ hb)

/-- Without a query to add, the destination's own parts are carried. -/
theorem carries_own (hbase : Bare base) (h : queryOf dest ≠ [] ∨ query = []) :
    Carries base dest query (base ++ dest) := by
  obtain ⟨hform, hno⟩ := queryOf_form dest
  obtain ⟨hpath, hquery, hfrag⟩ := parts_append (bare_append hbase (bareOf_bare dest)) hform hno (fragmentOf_form dest)
  have hsplit : base ++ bareOf dest ++ queryOf dest ++ fragmentOf dest = base ++ dest := by
    rw [List.append_assoc base, List.append_assoc base, parts_eq]
  rw [hsplit] at hpath hquery hfrag
  refine ⟨hpath, ?_, hfrag⟩
  rw [hquery]
  split
  · rename_i hown
    rw [h.resolve_left (not_not.2 hown), hown]
  · rfl

/-- A destination without a query of its own is its path and its fragment. -/
theorem dest_split (hown : queryOf dest = []) : dest = bareOf dest ++ fragmentOf dest := by
  conv_lhs => rw [← parts_eq dest, hown, List.append_nil]

/-- What is added behind a fragment joins it. -/
theorem not_carries_of_fragment (hbase : Bare base) (hown : queryOf dest = []) (hhash : 35 ∈ dest) (t : Str) :
    ¬ Carries base dest (63 :: q) (base ++ dest ++ t) := by
  intro h
  obtain ⟨f, hf⟩ := (fragmentOf_form dest).resolve_left (mem_fragmentOf.1 hhash)
  have hloc : base ++ dest ++ t = base ++ bareOf dest ++ [] ++ 35 :: (f ++ t) := by
    conv_lhs => rw [dest_split hown, hf]
    simp only [List.append_assoc, List.cons_append, List.nil_append]
  have hquery := h.query
  rw [hloc, (parts_append (bare_append hbase (bareOf_bare dest)) (.inl rfl) List.not_mem_nil (.inr ⟨_, rfl⟩)).2.1,
    if_pos hown] at hquery
  cases hquery

/-- Added to a bare path, a query is carried unless it holds a `#` itself. -/
theorem carries_added (hbase : Bare base) (hown : queryOf dest = []) (hhash : 35 ∉ dest) :
    Carries base dest (63 :: q) (base ++ dest ++ 63 :: q) ↔ 35 ∉ 63 :: q := by
  have hfrag : fragmentOf dest = [] := not_not.1 fun h => hhash (mem_fragmentOf.2 h)
  constructor
  · intro h hq
    have hkeep := h.fragment
    rw [hfrag] at hkeep
    exact mem_fragmentOf.1 (List.mem_append_right _ hq) hkeep
  · intro hq
    obtain ⟨h1, h2, h3⟩ := parts_append (f := []) (bare_append hbase (bareOf_bare dest)) (.inr ⟨q, rfl⟩) hq (.inl rfl)
    have hdest : bareOf dest = dest := by
      conv_rhs => rw [dest_split hown, hfrag, List.append_nil]
    rw [hdest, List.append_nil] at h1 h2 h3
    exact ⟨by rw [h1, hdest], by rw [h2, if_pos hown], by rw [h3, hfrag]⟩

theorem contains_of_queryOf (h : queryOf dest ≠ []) : dest.contains 63 = true := by
  obtain ⟨q, hq⟩ := (queryOf_form dest).1.resolve_left h
  rw [List.contains_iff_mem, ← parts_eq dest, hq]
  simp

/-- A location built by concatenation carries the query exactly when it fits. -/
theorem carries_iff (hquery : query = [] ∨ ∃ q, query = 63 :: q) :
    Carries base dest query (base ++ dest ++ if dest.contains 63 then [] else query) ↔ QueryFits base dest query := by
  by_cases hbase : Bare base
  swap
  · exact ⟨fun h => absurd h.bare hbase, fun h => absurd h.base hbase⟩
  by_cases hown : queryOf dest = []
  swap
  · rw [contains_of_queryOf hown, if_pos rfl, List.append_nil]
    exact ⟨fun _ => ⟨hbase, .inl hown⟩, fun _ => carries_own hbase (.inl hown)⟩
  rcases hquery with rfl | ⟨q, rfl⟩
  · rw [ite_self, List.append_nil]
    exact ⟨fun _ => ⟨hbase, .inr (.inl rfl)⟩, fun _ => carries_own hbase (.inr rfl)⟩
  by_cases hhash : 35 ∈ dest
  · refine ⟨fun h => absurd h (not_carries_of_fragment hbase hown hhash _), fun h => ?_⟩
    rcases h.query with h | h | h
    · exact absurd hown h
    · cases h
    · exact absurd hhash h.1
  · have hplain : dest.contains 63 = false := by
      rw [Bool.eq_false_iff, ne_eq, List.contains_iff_mem, dest_split hown, List.mem_append]
      rintro (hm | hm)
      · exact absurd (bareOf_bare dest _ hm) (by decide)
      · exact hhash (mem_fragmentOf.2 (List.ne_nil_of_mem hm))
    rw [hplain, if_neg Bool.false_ne_true, carries_added hbase hown hhash]
    constructor
    · exact fun hq => ⟨hbase, .inr (.inr ⟨hhash, hq⟩)⟩
    · rintro ⟨-, h | h | h⟩
      · exact absurd hown h
      · cases h
      · exact h.2

end

/-! ## Requests -/

section

variable {fs : FileSys} {vhosts : Vhosts} {sni : Option Str} {head : Bytes} {req : Request} {site : Site} {decoded dest : Str}

theorem ruleLocation_eq (site : Site) (vhosts : Vhosts) (hostKey dest query : Str) (redirectHttps : Bool) :
    ruleLocation (builtOrigin site vhosts hostKey redirectHttps).1 (builtOrigin site vhosts hostKey redirectHttps).2
        dest query =
      baseOf site vhosts hostKey dest redirectHttps ++ dest ++ if dest.contains 63 then [] else query := by
  unfold ruleLocation baseOf isAbsolute
  rw [Bool.or_comm]
  simp only
  cases hs : ((str "http://").isPrefixOf dest || (str "https://").isPrefixOf dest) <;> cases dest.contains 63 <;> simp

/-- A path off the challenge prefix that a rule decides goes where the rule sends it. -/
theorem redirectFor_rule {hostKey target path query : Str} (redirectHttps : Bool)
    (hacme : ¬ acmePrefix <+: decoded) (hd : site.redirects.resolve path = some dest) :
    redirectFor site vhosts hostKey target path query decoded redirectHttps =
      some (ruleLocation (builtOrigin site vhosts hostKey redirectHttps).1
        (builtOrigin site vhosts hostKey redirectHttps).2 dest query) := by
  have hacme' : acmePrefix.isPrefixOf decoded = false := Bool.eq_false_iff.2 (mt List.isPrefixOf_iff_prefix.1 hacme)
  unfold redirectFor builtOrigin
  simp only [hacme', Bool.false_eq_true, if_false, hd]

variable (fs) in
/-- A request that a rule decides is answered with the rule's 301. -/
theorem Reached.ruled (hr : Reached vhosts sni head req site decoded) (hf : req.fetches = true)
    (hacme : ¬ acmePrefix <+: decoded) (hd : site.redirects.resolve (targetPath req.target) = some dest)
    (wantKa redirectHttps : Bool) :
    handleRequest fs head vhosts wantKa redirectHttps sni =
      say (sendRedirect
        (baseOf site vhosts (normalizeHost req.fields.hostHdr) dest redirectHttps ++ dest ++
          if dest.contains 63 then [] else targetQuery req.target)
        (req.fields.keepAlive && wantKa) site.policy.securityHeaders) (req.fields.keepAlive && wantKa) := by
  rw [hr.reply fs wantKa redirectHttps, hf, if_pos rfl, redirectFor_rule redirectHttps hacme hd, ruleLocation_eq]

/-- The Location of a rule carries the query over exactly when it fits: the destination has a query of its
own, or the request has none, or no fragment comes before it or in it. -/
theorem handleRequest_query_iff (hr : Reached vhosts sni head req site decoded) (hf : req.fetches = true)
    (hacme : ¬ acmePrefix <+: decoded) (hd : site.redirects.resolve (targetPath req.target) = some dest)
    (wantKa redirectHttps : Bool) :
    ∃ location keepAlive,
      handleRequest fs head vhosts wantKa redirectHttps sni =
        say (sendRedirect location keepAlive site.policy.securityHeaders) keepAlive ∧
      (Carries (baseOf site vhosts (normalizeHost req.fields.hostHdr) dest redirectHttps) dest (targetQuery req.target)
          location ↔
        QueryFits (baseOf site vhosts (normalizeHost req.fields.hostHdr) dest redirectHttps) dest
          (targetQuery req.target)) :=
  ⟨_, _, hr.ruled fs hf hacme hd wantKa redirectHttps, carries_iff (targetQuery_form req.target)⟩

end

/-- A site that only redirects, by these rules. -/
def ruleSite (r : Redirects) : Site :=
  ⟨0, none, .empty, true, false, r, .withHeaders .default .default .memory (str "/cache")⟩

def ruleTable (r : Redirects) : Vhosts where
  sites := (∅ : Sites).insert (str "a.example") (ruleSite r)
  httpsPort := str "443"
  httpPort := str "80"
  errors := .new (str "X: y\r\n")

def oldHead : Bytes := str "GET /old?a=1 HTTP/1.1\r\nHost: a.example\r\n\r\n"

theorem reached_oldHead (r : Redirects) : ∃ req, Reached (ruleTable r) none oldHead req (ruleSite r) (str "/old") ∧
    req.fetches = true ∧ normalizeHost req.fields.hostHdr = str "a.example" ∧ targetPath req.target = str "/old" ∧
    targetQuery req.target = str "?a=1" :=
  ⟨_, ⟨rfl, (fun _ h => by cases h), by rfl, by decide, by decide, by rfl⟩, by decide, by decide, by decide, by decide⟩

/-- A plain target takes the query. -/
theorem handleRequest_query_plain : ∃ r, Redirects.pushLines default [(str "/old", str "/new")] = .ok r ∧
    ∃ location keepAlive,
      handleRequest oneToken oldHead (ruleTable r.finish) true false none =
        say (sendRedirect location keepAlive (ruleSite r.finish).policy.securityHeaders) keepAlive ∧
      Carries (str "https://a.example") (str "/new") (str "?a=1") location := by
  refine ⟨_, rfl, ?_⟩
  obtain ⟨req, hr, hf, hhost, hpath, hquery⟩ := reached_oldHead (Redirects.put default (.exact (str "/old"), str "/new")).finish
  have hd : (Redirects.put default (.exact (str "/old"), str "/new")).finish.resolve (targetPath req.target) =
      some (str "/new") := by
    rw [hpath]
    rfl
  obtain ⟨location, keepAlive, hreply, hcarries⟩ := @handleRequest_query_iff oneToken _ _ _ _ _ _ _ hr hf (by decide) hd true false
  rw [hhost, hquery] at hcarries
  exact ⟨location, keepAlive, hreply, hcarries.2 ⟨bare_iff.2 (by decide), .inr (.inr (by decide))⟩⟩

/-- Behind a fragment the query is lost in it. -/
theorem query_joins_fragment : ∃ r, Redirects.pushLines default [(str "/old", str "/new#top")] = .ok r ∧
    handleRequest oneToken oldHead (ruleTable r.finish) true false none =
      say (sendRedirect (str "https://a.example/new#top?a=1") true (ruleSite r.finish).policy.securityHeaders) true ∧
    queryOf (str "/new#top") = [] ∧ queryOf (str "https://a.example/new#top?a=1") = [] ∧
    ¬ Carries (str "https://a.example") (str "/new#top") (str "?a=1") (str "https://a.example/new#top?a=1") := by
  have hown : queryOf (str "/new#top") = [] := by decide
  have hlost : queryOf (str "https://a.example/new#top?a=1") = [] := by decide
  refine ⟨_, rfl, by decide +kernel, hown, hlost, fun h => ?_⟩
  have hquery := h.query
  rw [hown, hlost] at hquery
  exact absurd hquery (by decide)

end BareServer
