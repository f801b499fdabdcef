/-
Which redirect rules can be reached. A pattern is compared with the raw path of a request, so a rule is
of use when its pattern is a path that a request line carries and that decodes to text off the ACME
prefix; recording a rule checks none of this.
-/
import BareServer.Serve.Query

namespace BareServer

open BareServer.Lib

/-! ## Decoding in parts -/

theorem hexval_slash : hexval 47 = none := by decide

/-- A slash leaves an escape begun before it malformed. -/
theorem percentDecode_cut (t : Str) {s : Str} (h : ∀ hi lo u, s ≠ hi :: lo :: u) :
    percentDecode (37 :: (s ++ 47 :: t)) = none := by
  rcases s with - | ⟨x, - | ⟨y, u⟩⟩
  · cases t with
    | nil => rfl
    | cons y t => simp [percentDecode, hexval_slash]
  · simp [percentDecode, hexval_slash]
  · exact absurd rfl (h x y u)

/-- Text is decoded before and after a slash by itself. -/
theorem percentDecode_slash (t s : Str) :
    percentDecode (s ++ 47 :: t) = (percentDecode s).bind fun a => (percentDecode t).map fun b => a ++ 47 :: b := by
  have hcons : percentDecode (47 :: t) = (percentDecode t).map (47 :: ·) := rfl
  induction s using percentDecode.induct with
  | case1 => simpa [percentDecode] using hcons
  | case2 hi lo s h l hlo hhi hcontrol => simp [percentDecode, hhi, hlo, hcontrol]
  | case3 hi lo s h l hlo hhi hcontrol ih =>
    simp only [List.cons_append, percentDecode, hhi, hlo, hcontrol, ih]
    cases percentDecode s <;> simp [Function.comp_def]
  | case4 hi lo s hbad =>
    simp only [List.cons_append, percentDecode]
    cases hhi : hexval hi with
    | none => rfl
    | some h =>
      cases hlo : hexval lo with
      | none => rfl
      | some l => exact absurd hlo (hbad h l hhi)
  | case5 c s hshort hbad =>
    rw [percentDecode.eq_3 _ _ hshort, if_pos hbad, Option.bind_none]
    by_cases hc : c = 37
    · subst hc
      exact percentDecode_cut t fun hi lo u he => hshort hi lo u rfl he
    · rw [List.cons_append, percentDecode.eq_3 _ _ fun _ _ _ he _ => hc he, if_pos hbad]
  | case6 c s hshort hbad ih =>
    have hc : c ≠ 37 := by
      rintro rfl
      exact hbad rfl
    rw [List.cons_append, percentDecode.eq_3 _ _ fun _ _ _ he _ => hc he, if_neg hbad, ih,
      percentDecode.eq_3 _ _ hshort, if_neg hbad]
    cases percentDecode s <;> simp [Function.comp_def]

/-! ## Paths that can be asked for -/

/-- A path that a request line carries and that decodes to text off the challenge prefix. -/
structure Requestable (path : Str) : Prop where
  noQuery : 63 ∉ path
  noSpace : 32 ∉ path
  decodes : ∃ d, (percentDecode path).bind fromUtf8 = some d ∧ ¬ acmePrefix <+: d

/-- What a rule's pattern is compared with: a whole path, or its start. -/
def Pattern.text : Pattern → Str
  | .exact path => path
  | .under pre => pre
  | .all => []

/-- The part of a requestable path up to a slash is requestable. -/
theorem Requestable.of_append {pre rest : Str} (hslash : str "/" <:+ pre) (h : Requestable (pre ++ rest)) :
    Requestable pre := by
  obtain ⟨s, rfl⟩ := hslash
  obtain ⟨d, hd, hacme⟩ := h.decodes
  rw [str_slash] at hd ⊢
  rw [List.append_assoc, List.singleton_append, percentDecode_slash] at hd
  obtain ⟨hbytes, hutf8⟩ := bind_fromUtf8_eq_some.1 hd
  obtain ⟨a, ha, hb⟩ := Option.bind_eq_some_iff.1 hbytes
  obtain ⟨b, -, rfl⟩ := Option.map_eq_some_iff.1 hb
  have hcut : isUtf8 (a ++ [47]) = true := by
    rw [isUtf8_append (isUtf8_cut (by decide) hutf8).1]
    rfl
  refine ⟨fun hm => h.noQuery (List.mem_append_left _ hm), fun hm => h.noSpace (List.mem_append_left _ hm), a ++ [47],
    ?_, fun hp => hacme (hp.trans ⟨b, by simp⟩)⟩
  rw [percentDecode_slash, ha, Option.bind_some]
  exact fromUtf8_eq_some.2 ⟨hcut, rfl⟩

/-! ## One rule -/

section

variable {pattern target : Str} {r : Redirects}

/-- A single rule is recorded as it is. -/
theorem records_one (hpush : (default : Redirects).push pattern target = .ok r) :
    r.Records [(.ofText pattern, target)] := by
  obtain ⟨-, hnew, rfl⟩ := Redirects.push_ok.1 hpush
  simpa using Redirects.records_nil.put hnew

/-- The rule decides its own text, the path of an exact pattern or the bare prefix. -/
theorem decision_text (hpush : (default : Redirects).push pattern target = .ok r) (hstar : pattern ≠ str "*") :
    ∃ cap, r.finish.decision (Pattern.ofText pattern).text = some (target, cap) := by
  have hrec := records_one hpush
  have hdec := hrec.decides (Pattern.ofText pattern).text
  cases hp : Pattern.ofText pattern with
  | exact path =>
    rw [hp] at hrec hdec
    have hd : Decides [(.exact path, target)] path (some (target, [])) := .exact List.mem_cons_self
    exact ⟨[], hdec.unique hrec.nodup hd⟩
  | under pre =>
    rw [hp] at hrec hdec
    have hlongest : Longest (underRules [(.under pre, target)]) pre pre target [] :=
      ⟨List.mem_cons_self, (List.append_nil pre).symm, fun e he hpre => hpre.length_le⟩
    have hd : Decides [(.under pre, target)] pre (some (target, [])) := .under (by simp) hlongest
    exact ⟨[], hdec.unique hrec.nodup hd⟩
  | all =>
    unfold Pattern.ofText at hp
    rw [if_neg (by simpa using hstar)] at hp
    split at hp <;> cases hp

/-- A path the rule decides is its text, or goes on after its final slash. -/
theorem text_of_decision (hpush : (default : Redirects).push pattern target = .ok r) (hstar : pattern ≠ str "*")
    {path : Str} {d : Str × Str} (hd : r.finish.decision path = some d) :
    path = (Pattern.ofText pattern).text ∨
      str "/" <:+ (Pattern.ofText pattern).text ∧ ∃ rest, path = (Pattern.ofText pattern).text ++ rest := by
  have hok := (Redirects.push_ok.1 hpush).1.pattern
  have hdec := (records_one hpush).decides path
  rw [hd] at hdec
  cases hdec with
  | exact rule =>
    rw [List.mem_singleton, Prod.mk.injEq] at rule
    exact .inl (by rw [← rule.1]; rfl)
  | under _ rule =>
    have hmem := mem_underRules.1 rule.mem
    rw [List.mem_singleton, Prod.mk.injEq] at hmem
    rw [← hmem.1] at hok ⊢
    exact .inr ⟨hok.slash, _, rule.split⟩
  | all _ _ rule =>
    rw [List.mem_singleton, Prod.mk.injEq] at rule
    unfold Pattern.ofText at rule
    rw [if_neg (by simpa using hstar)] at rule
    obtain ⟨hall, -⟩ := rule
    split at hall <;> cases hall

/-- The text of a pattern is a rooted part of it. -/
theorem text_rooted (hpush : (default : Redirects).push pattern target = .ok r) (hstar : pattern ≠ str "*") :
    str "/" <+: (Pattern.ofText pattern).text ∧ (Pattern.ofText pattern).text <+: pattern ∧
      (isUtf8 pattern = true → isUtf8 (Pattern.ofText pattern).text = true) := by
  have hok := (Redirects.push_ok.1 hpush).1.pattern
  unfold Pattern.ofText at hok ⊢
  rw [if_neg (by simpa using hstar)] at hok ⊢
  simp only at hok ⊢
  cases hs : (str "*").isSuffixOf? pattern with
  | none =>
    rw [hs] at hok
    exact ⟨hok.rooted, List.prefix_rfl, id⟩
  | some pre =>
    rw [hs] at hok
    have hsplit := List.isSuffixOf?_eq_some_iff_append_eq.1 hs
    refine ⟨hok.rooted, ⟨_, hsplit⟩, fun h => ?_⟩
    rw [← hsplit, show str "*" = [42] by decide] at h
    exact (isUtf8_cut (by decide) h).1

end

/-! ## The requests a rule answers -/

/-- A GET of the site is answered with the 301 of the rule with this target. -/
def RuleAnswers (fs : FileSys) (vhosts : Vhosts) (site : Site) (target : Str) (wantKa redirectHttps : Bool)
    (sni : Option Str) (head : Bytes) : Prop :=
  ∃ req decoded cap keepAlive, Reached vhosts sni head req site decoded ∧ req.method = str "GET" ∧
    site.redirects.decision (targetPath req.target) = some (target, cap) ∧
    handleRequest fs head vhosts wantKa redirectHttps sni =
      say (sendRedirect (ruleLocation (builtOrigin site vhosts (normalizeHost req.fields.hostHdr) redirectHttps).1
          (builtOrigin site vhosts (normalizeHost req.fields.hostHdr) redirectHttps).2
          (expand target (targetPath req.target) cap) (targetQuery req.target)) keepAlive site.policy.securityHeaders)
        keepAlive

section

variable {h : HeaderConfig} {fs : FileSys} {vhosts : Vhosts} {site : Site} {pattern target host : Str} {r : Redirects}
  {wantKa redirectHttps : Bool} {sni : Option Str} {head : Bytes}

/-- A rule that answers a request has a requestable text. -/
theorem RuleAnswers.requestable (hpush : (default : Redirects).push pattern target = .ok r) (hstar : pattern ≠ str "*")
    (hp : PolicyOf h site.policy) (hred : site.redirects = r.finish)
    (ha : RuleAnswers fs vhosts site target wantKa redirectHttps sni head) :
    Requestable (Pattern.ofText pattern).text := by
  obtain ⟨req, decoded, cap, keepAlive, hr, -, hd, hreply⟩ := ha
  have hacme : ¬ acmePrefix <+: decoded := by
    intro hacme
    have hmoved : Unmoved (handleRequest fs head vhosts wantKa redirectHttps sni) := hr.unmoved_acme hp hacme wantKa redirectHttps
    rw [hreply, hp.securityHeaders] at hmoved
    exact hmoved (statusOf_sendRedirect_eq h _ keepAlive)
  have hpath : Requestable (targetPath req.target) := by
    refine ⟨fun hm => ?_, fun hm => ?_, decoded, hr.decoded, hacme⟩
    · have := List.all_eq_true.1 (List.all_takeWhile (l := req.target) (p := (· != 63))) 63 hm
      exact absurd this (by decide)
    · exact (readRequest_iff.1 hr.read).noSpace ((List.takeWhile_prefix _).subset hm)
  rw [hred] at hd
  rcases text_of_decision hpush hstar hd with heq | ⟨hslash, rest, heq⟩
  · rwa [heq] at hpath
  · rw [heq] at hpath
    exact hpath.of_append hslash

/-- A request for a requestable text is answered by its rule. -/
theorem Requestable.answers (hpush : (default : Redirects).push pattern target = .ok r) (hstar : pattern ≠ str "*")
    (hlen : pattern.length < 1000) (htext : isUtf8 pattern = true) (hred : site.redirects = r.finish) {named : Request}
    (hnamed : readRequest head = .ok named)
    (hsite : vhosts.sites.lookup (normalizeHost named.fields.hostHdr) = some site)
    (hsni : ∀ s, sni = some s → s = normalizeHost named.fields.hostHdr)
    (hpath : Requestable (Pattern.ofText pattern).text) :
    ∃ head', RuleAnswers fs vhosts site target wantKa redirectHttps sni head' := by
  obtain ⟨hroot, hprefix, hutf8⟩ := text_rooted hpush hstar
  obtain ⟨cap, hd⟩ := decision_text hpush hstar
  generalize (Pattern.ofText pattern).text = path at *
  obtain ⟨decoded, hdecoded, hacme⟩ := hpath.decodes
  obtain ⟨hbytes, -⟩ := bind_fromUtf8_eq_some.1 hdecoded
  have hne : path ≠ [] := by
    rintro rfl
    exact absurd hroot (by decide)
  obtain ⟨head', req, hread, hmethod, htarget, hhost, -, -⟩ :=
    exists_get hnamed hne (clean_of_percentDecode hbytes).1 hpath.noSpace (hutf8 htext)
  have hwhole : targetPath req.target = path := by
    rw [htarget]
    refine List.takeWhile_eq_self_iff.2 fun b hb => ?_
    rw [bne_iff_ne]
    rintro rfl
    exact hpath.noQuery hb
  rw [← hhost] at hsite hsni
  have hr : Reached vhosts sni head' req site decoded := by
    refine ⟨hread, hsni, hsite, by rwa [hwhole], ?_, by rwa [hwhole]⟩
    have := hprefix.length_le
    rw [hwhole, maxPathLen]
    omega
  rw [← hred, ← hwhole] at hd
  have hf : req.fetches = true := by
    rw [Request.fetches, hmethod, beq_self_eq_true, Bool.true_or]
  have hreply := hr.reply fs wantKa redirectHttps
  rw [hf, if_pos rfl, redirectFor_rule redirectHttps hacme (by rw [Redirects.resolve_eq, hd]; rfl)] at hreply
  exact ⟨head', req, decoded, cap, _, hr, hmethod, hd, hreply⟩

/-- On a site whose only rule is an exact or a prefix rule, some GET is answered with the rule's 301 exactly
when the pattern's text can be asked for. The site is one that some request names. -/
theorem push_answers_iff (hpush : (default : Redirects).push pattern target = .ok r) (hstar : pattern ≠ str "*")
    (hlen : pattern.length < 1000) (htext : isUtf8 pattern = true) (hp : PolicyOf h site.policy)
    (hred : site.redirects = r.finish) {named : Request} (hnamed : readRequest head = .ok named)
    (hsite : vhosts.sites.lookup (normalizeHost named.fields.hostHdr) = some site)
    (hsni : ∀ s, sni = some s → s = normalizeHost named.fields.hostHdr) :
    (∃ head', RuleAnswers fs vhosts site target wantKa redirectHttps sni head') ↔
      Requestable (Pattern.ofText pattern).text :=
  ⟨fun ⟨_, ha⟩ => ha.requestable hpush hstar hp hred,
    fun hpath => hpath.answers hpush hstar hlen htext hred hnamed hsite hsni⟩

end

/-- A rule for a page is reached. -/
theorem push_answers_page : ∃ r, (default : Redirects).push (str "/old%20page") (str "/new") = .ok r ∧
    ∃ head, RuleAnswers oneToken (ruleTable r.finish) (ruleSite r.finish) (str "/new") true true none head := by
  obtain ⟨r, hpush⟩ : ∃ r, (default : Redirects).push (str "/old%20page") (str "/new") = .ok r := ⟨_, rfl⟩
  obtain ⟨named, hr, -, hhost, -, -⟩ := reached_oldHead r.finish
  have hsite : (ruleTable r.finish).sites.lookup (normalizeHost named.fields.hostHdr) = some (ruleSite r.finish) := by
    rw [hhost]
    rfl
  exact ⟨r, hpush, (push_answers_iff hpush (by decide) (by decide) (by decide) (policyOf_withHeaders _ _ _ _) rfl
    hr.read hsite (fun _ h => by cases h)).2 ⟨by decide, by decide, str "/old page", by decide, by decide⟩⟩

/-- A pattern with a `?` is accepted, and no request of the site is answered by it. -/
theorem push_dead_query : ∃ r, (default : Redirects).push (str "/a?b") (str "/new") = .ok r ∧
    (str "/a?b").length < 1000 ∧ ¬ acmePrefix <+: str "/a?b" ∧
    ∀ fs wantKa redirectHttps sni head,
      ¬ RuleAnswers fs (ruleTable r.finish) (ruleSite r.finish) (str "/new") wantKa redirectHttps sni head := by
  have hpush : (default : Redirects).push (str "/a?b") (str "/new") =
      .ok (Redirects.put default (.exact (str "/a?b"), str "/new")) := rfl
  refine ⟨_, rfl, by decide, by decide, fun fs wantKa redirectHttps sni head ha => ?_⟩
  have hreq := RuleAnswers.requestable hpush (by decide) (policyOf_withHeaders _ _ _ _) rfl ha
  exact absurd hreq.noQuery (by decide)

end BareServer
