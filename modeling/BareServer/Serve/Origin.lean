/-
Where redirects lead: the scheme and authority of a Location. Those a Location is built with come
from the matched host and the configured port; those of a rule's absolute target are the literal ones
as long as its authority ends before anything of the request is put into it.
-/
import BareServer.Config.Reading
import BareServer.Config.Template
import BareServer.Serve.Framing
import BareServer.Serve.Fidelity

namespace BareServer

open BareServer.Lib

/-! ## Authorities -/

/-- The bytes that end an authority: `/`, `?` and `#`. -/
def endsAuthority (b : UInt8) : Bool := b == 47 || b == 63 || b == 35

/-- The authority that a text after `://` starts with. -/
def authorityOf (s : Str) : Str := s.takeWhile fun b => !endsAuthority b

/-- Scheme and authority of an absolute reference. -/
def originOf (s : Str) : Option (Str × Str) := (splitOnce s (str "://")).map fun sr => (sr.1, authorityOf sr.2)

/-- The scheme and authority a same-host Location is built with. -/
def builtOrigin (site : Site) (vhosts : Vhosts) (hostKey : Str) (redirectHttps : Bool) : Str × Str :=
  if redirectHttps && !site.forceSsl then (str "http", redirectAuthority hostKey vhosts.httpPort (str "80"))
  else (str "https", redirectAuthority hostKey vhosts.httpsPort (str "443"))

/-- The scheme of an absolute target. -/
def schemeOf (target : Str) : Str := if (str "http://").isPrefixOf target then str "http" else str "https"

/-- An absolute target after its `://`. -/
def afterScheme (target : Str) : Str := target.drop ((schemeOf target).length + 3)

/-- The scheme and authority written in an absolute target. -/
def literalOrigin (target : Str) : Str × Str :=
  (schemeOf target, authorityOf (leading (tokens (afterScheme target))))

/-- Does what stands after a literal authority end it? -/
def endsAt (cap : Str) : List Tok → Bool
  | [] => true
  | .byte b :: _ => endsAuthority b
  | .whole :: _ => true
  | .rest :: ts =>
    match cap with
    | [] => endsAt cap ts
    | b :: _ => endsAuthority b

/-- Does the authority of a target end within its literal text, or right after it? -/
def fixedAuthority (cap : Str) : List Tok → Bool
  | .byte b :: ts => endsAuthority b || fixedAuthority cap ts
  | ts => endsAt cap ts

section

variable {path cap q : Str}

theorem authorityOf_ends {b : UInt8} (hb : endsAuthority b = true) (s : Str) : authorityOf (b :: s) = [] := by
  simp [authorityOf, hb]

theorem authorityOf_cons {b : UInt8} (hb : endsAuthority b = false) (s : Str) :
    authorityOf (b :: s) = b :: authorityOf s := by
  simp [authorityOf, hb]

/-- Text before a delimiter is its authority when it holds none itself. -/
theorem authorityOf_append {a s : Str} {b : UInt8} (hb : endsAuthority b = true) :
    authorityOf (a ++ b :: s) = a ↔ a.all (fun b => !endsAuthority b) = true := by
  induction a with
  | nil => simp [authorityOf_ends hb]
  | cons c a ih =>
    rw [List.cons_append, List.all_cons]
    cases hc : endsAuthority c with
    | true => simp [authorityOf_ends hc]
    | false => simp [authorityOf_cons hc, ih]

/-- What follows a target ends its authority: nothing, or a query. -/
def Ending (q : Str) : Prop := authorityOf q = []

theorem ending_query (target : Str) : Ending (targetQuery target) := by
  unfold Ending targetQuery
  induction target with
  | nil => rfl
  | cons b t ih =>
    rw [List.dropWhile_cons]
    split
    · exact ih
    · rename_i h
      have hb : b = 63 := by simpa using h
      exact authorityOf_ends (by rw [hb]; rfl) t

theorem endsAt_iff (hpath : str "/" <+: path) (hq : Ending q) (ts : List Tok) :
    authorityOf (fill path cap ts ++ q) = [] ↔ endsAt cap ts = true := by
  obtain ⟨p, rfl⟩ := hpath
  have hslash : endsAuthority 47 = true := rfl
  induction ts with
  | nil => exact ⟨fun _ => rfl, fun _ => hq⟩
  | cons t ts ih =>
    rw [fill_cons, List.append_assoc]
    cases t with
    | byte b =>
      rw [Tok.fill, List.singleton_append, endsAt]
      cases hb : endsAuthority b with
      | true => simp [authorityOf_ends hb]
      | false => simp [authorityOf_cons hb]
    | whole =>
      rw [Tok.fill, endsAt, str_slash, List.singleton_append, List.cons_append]
      simp [authorityOf_ends hslash]
    | rest =>
      cases cap with
      | nil => exact ih
      | cons b cap =>
        rw [Tok.fill, endsAt, List.cons_append]
        cases hb : endsAuthority b with
        | true => simp [authorityOf_ends hb]
        | false => simp [authorityOf_cons hb]

/-- A filled-in authority is the literal one exactly when it ends where the literal text does. -/
theorem fixedAuthority_iff (hpath : str "/" <+: path) (hq : Ending q) (ts : List Tok) :
    authorityOf (fill path cap ts ++ q) = authorityOf (leading ts) ↔ fixedAuthority cap ts = true := by
  induction ts with
  | nil => exact endsAt_iff hpath hq []
  | cons t ts ih =>
    cases t with
    | whole => exact endsAt_iff hpath hq (.whole :: ts)
    | rest => exact endsAt_iff hpath hq (.rest :: ts)
    | byte b =>
      rw [fill_cons, Tok.fill, List.singleton_append, List.cons_append, leading, fixedAuthority]
      cases hb : endsAuthority b with
      | true => simp [authorityOf_ends hb]
      | false => simp [authorityOf_cons hb, ih]

end

/-! ## Locations -/

/-- A scheme that is `http` or `https`. -/
def IsScheme (s : Str) : Prop := s = str "http" ∨ s = str "https"

theorem originOf_scheme {scheme : Str} (h : IsScheme scheme) (s : Str) :
    originOf (scheme ++ str "://" ++ s) = some (scheme, authorityOf s) := by
  have hsep : str "://" = 58 :: str "//" := by decide
  have hs : 58 ∉ scheme := by rcases h with rfl | rfl <;> decide
  rw [originOf, List.append_assoc, hsep, splitOnce_of_not_mem hs, Option.map_some]

/-- A Location built around an authority leads to it when it holds no delimiter. -/
theorem originOf_built {scheme authority s : Str} {b : UInt8} (h : IsScheme scheme) (hb : endsAuthority b = true) :
    originOf (scheme ++ str "://" ++ (authority ++ b :: s)) = some (scheme, authority) ↔
      authority.all (fun b => !endsAuthority b) = true := by
  rw [originOf_scheme h, Option.some.injEq, Prod.mk.injEq]
  simp [authorityOf_append hb]

/-- A literal stays as it is in a template. -/
theorem tokens_append {s : Str} (h : 36 ∉ s) (t : Str) : tokens (s ++ t) = s.map .byte ++ tokens t := by
  induction s with
  | nil => rfl
  | cons c s ih =>
    have hc : c ≠ 36 := fun he => h (he ▸ List.mem_cons_self)
    rw [List.cons_append, tokens, ih fun hm => h (List.mem_cons_of_mem _ hm)]
    · rfl
    all_goals intro _ he; exact absurd he hc

theorem drop_scheme (scheme t : Str) : (scheme ++ str "://" ++ t).drop (scheme.length + 3) = t := by
  have hlen : (scheme ++ str "://").length = scheme.length + 3 := by
    rw [List.length_append, show (str "://").length = 3 by decide]
  rw [← hlen, List.drop_left]

/-- An absolute target is its scheme and what follows. -/
theorem absolute_split {target : Str} (h : isAbsolute target = true) :
    IsScheme (schemeOf target) ∧ target = schemeOf target ++ str "://" ++ afterScheme target := by
  have hhttp : str "http://" = str "http" ++ str "://" := by decide
  have hhttps : str "https://" = str "https" ++ str "://" := by decide
  unfold afterScheme schemeOf
  by_cases hp : (str "http://").isPrefixOf target = true
  · rw [if_pos hp]
    obtain ⟨t, rfl⟩ := List.isPrefixOf_iff_prefix.1 hp
    rw [hhttp, drop_scheme]
    exact ⟨.inl rfl, rfl⟩
  · rw [if_neg hp]
    rw [isAbsolute, Bool.or_eq_true, or_iff_right hp] at h
    obtain ⟨t, rfl⟩ := List.isPrefixOf_iff_prefix.1 h
    rw [hhttps, drop_scheme]
    exact ⟨.inr rfl, rfl⟩

/-- A rule's absolute target leads to its literal origin exactly when its authority is fixed. -/
theorem originOf_absolute {target path cap q : Str} (habs : isAbsolute target = true) (hpath : str "/" <+: path)
    (hq : Ending q) : originOf (expand target path cap ++ q) = some (literalOrigin target) ↔
      fixedAuthority cap (tokens (afterScheme target)) = true := by
  obtain ⟨hscheme, hsplit⟩ := absolute_split habs
  have hdollar : 36 ∉ schemeOf target ++ str "://" := by rcases hscheme with h | h <;> rw [h] <;> decide
  have hexpand : expand target path cap ++ q =
      schemeOf target ++ str "://" ++ (fill path cap (tokens (afterScheme target)) ++ q) := by
    rw [expand_eq]
    conv_lhs => rw [hsplit, tokens_append hdollar, fill_append, fill_bytes]
    rw [List.append_assoc (schemeOf target ++ str "://")]
  rw [hexpand, originOf_scheme hscheme, literalOrigin, Option.some.injEq, Prod.mk.injEq,
    fixedAuthority_iff hpath hq]
  exact and_iff_right rfl

/-! ## Rules -/

/-- Every target is absolute or starts with a slash once it is expanded. -/
def Rooted (r : Redirects) : Prop :=
  ∀ path t cap, str "/" <+: path → r.decision path = some (t, cap) →
    isAbsolute t = false → str "/" <+: expand t path cap

theorem rooted_of_check {target path : Str} (cap : Str) (hpath : str "/" <+: path)
    (h : Redirects.checkTarget target = .ok ()) (habs : isAbsolute target = false) :
    str "/" <+: expand target path cap := by
  unfold Redirects.checkTarget at h
  rw [Redirects.ite_error_ok, Redirects.ite_error_ok, Redirects.ite_error_ok] at h
  have hform : str "/" <+: target ∨ str "$0" <+: target := by
    have := h.2.2.1
    simp only [habs, Bool.not_false, Bool.true_and, Bool.and_eq_true, Bool.not_eq_true', not_and,
      Bool.not_eq_false, List.isPrefixOf_iff_prefix] at this
    by_cases hs : str "/" <+: target
    · exact .inl hs
    · exact .inr (this (Bool.eq_false_iff.2 fun he => hs (List.isPrefixOf_iff_prefix.1 he)))
  rw [expand_eq]
  rcases hform with ⟨t, rfl⟩ | ⟨t, rfl⟩
  · rw [tokens_append (by decide), fill_append, fill_bytes]
    exact List.prefix_append _ _
  · have htok : tokens (str "$0" ++ t) = .whole :: tokens t := by
      rw [show str "$0" = [36, 48] by decide]
      rfl
    rw [htok, fill_cons]
    exact hpath.trans (List.prefix_append _ _)

/-- Recorded rules are rooted. -/
theorem rooted_of_pushLines {lines : List (Str × Str)} {r : Redirects} (hr : Redirects.pushLines default lines = .ok r) :
    Rooted r.finish := by
  intro path t cap hpath hd habs
  have hdec := (Redirects.pushLines_records Redirects.records_nil hr).decides path
  rw [hd] at hdec
  obtain ⟨p, hrule⟩ := hdec.rule
  exact rooted_of_check cap hpath (((Redirects.pushLines_ok Redirects.records_nil).1 ⟨r, hr⟩).1 _ hrule).target habs

/-- The rules of an accepted config are rooted. -/
theorem rooted_of_accepted {text : Str} {cfg : Config} (h : parseConfig text = .ok cfg) :
    ∀ s ∈ cfg.sites, Rooted s.redirects := by
  intro s hs
  obtain ⟨b, -, hsite⟩ := forall₂_mem_right (parseConfig_sites h) hs
  obtain ⟨r, hr, hred⟩ := hsite.redirects
  rw [hred]
  exact rooted_of_pushLines hr

/-! ## What handle_request writes -/

/-- The origin a redirect of a path should have: the literal one of an absolute target, else the one
built from the host and the port. -/
def expectedOrigin (site : Site) (vhosts : Vhosts) (hostKey path : Str) (redirectHttps : Bool) : Str × Str :=
  match site.redirects.decision path with
  | some (target, _) => if isAbsolute target then literalOrigin target else builtOrigin site vhosts hostKey redirectHttps
  | none => builtOrigin site vhosts hostKey redirectHttps

/-- Whether nothing a request puts into a Location moves the end of its authority: an absolute target
ends it within its literal text, and an authority that is built holds no delimiter. -/
def originKept (site : Site) (vhosts : Vhosts) (hostKey path : Str) (redirectHttps : Bool) : Bool :=
  let plain := (builtOrigin site vhosts hostKey redirectHttps).2.all fun b => !endsAuthority b
  match site.redirects.decision path with
  | some (target, cap) => if isAbsolute target then fixedAuthority cap (tokens (afterScheme target)) else plain
  | none => plain

section

variable {site : Site} {vhosts : Vhosts} {hostKey path target : Str} {redirectHttps : Bool}

theorem isScheme_built : IsScheme (builtOrigin site vhosts hostKey redirectHttps).1 := by
  unfold builtOrigin
  split
  · exact .inl rfl
  · exact .inr rfl

/-- A Location built around the host and the port. -/
theorem originOf_sameHost {rest : Str} (hrest : str "/" <+: rest) :
    originOf ((builtOrigin site vhosts hostKey redirectHttps).1 ++ str "://" ++
        (builtOrigin site vhosts hostKey redirectHttps).2 ++ rest) =
      some (builtOrigin site vhosts hostKey redirectHttps) ↔
      ((builtOrigin site vhosts hostKey redirectHttps).2.all fun b => !endsAuthority b) = true := by
  obtain ⟨t, rfl⟩ := hrest
  rw [List.append_assoc, str_slash, List.singleton_append]
  exact originOf_built isScheme_built rfl

theorem isAbsolute_scheme {scheme : Str} (h : IsScheme scheme) (s : Str) : isAbsolute (scheme ++ str "://" ++ s) = true := by
  have hhttp : str "http://" = str "http" ++ str "://" := by decide
  have hhttps : str "https://" = str "https" ++ str "://" := by decide
  rw [isAbsolute, Bool.or_eq_true, List.isPrefixOf_iff_prefix, List.isPrefixOf_iff_prefix, hhttp, hhttps]
  rcases h with rfl | rfl
  · exact .inl (List.prefix_append _ _)
  · exact .inr (List.prefix_append _ _)

theorem isAbsolute_expand {cap : Str} (h : isAbsolute target = true) : isAbsolute (expand target path cap) = true := by
  obtain ⟨hscheme, hsplit⟩ := absolute_split h
  have hdollar : 36 ∉ schemeOf target ++ str "://" := by rcases hscheme with h | h <;> rw [h] <;> decide
  rw [expand_eq, hsplit, tokens_append hdollar, fill_append, fill_bytes]
  exact isAbsolute_scheme hscheme _

theorem not_absolute_of_slash {s : Str} (h : str "/" <+: s) : isAbsolute s = false := by
  obtain ⟨t, rfl⟩ := h
  rw [str_slash, isAbsolute, show str "http://" = 104 :: str "ttp://" by decide,
    show str "https://" = 104 :: str "ttps://" by decide]
  rfl

/-- The Location of a configured rule. -/
theorem originOf_ruleLocation (hroot : Rooted site.redirects) (hpath : str "/" <+: path) {cap : Str}
    (hd : site.redirects.decision path = some (target, cap)) {query : Str} (hq : Ending query) :
    originOf (ruleLocation (builtOrigin site vhosts hostKey redirectHttps).1
        (builtOrigin site vhosts hostKey redirectHttps).2 (expand target path cap) query) =
      some (expectedOrigin site vhosts hostKey path redirectHttps) ↔
      originKept site vhosts hostKey path redirectHttps = true := by
  unfold expectedOrigin originKept
  simp only [hd]
  cases habs : isAbsolute target with
  | true =>
    have hdest : isAbsolute (expand target path cap) = true := isAbsolute_expand habs
    rw [isAbsolute, Bool.or_comm] at hdest
    simp only [ruleLocation, hdest, if_true]
    cases (expand target path cap).contains 63 with
    | true =>
      have habsolute : originOf (expand target path cap ++ []) = some (literalOrigin target) ↔
          fixedAuthority cap (tokens (afterScheme target)) = true := originOf_absolute habs hpath rfl
      rwa [List.append_nil] at habsolute
    | false => exact originOf_absolute habs hpath hq
  | false =>
    have hslash := hroot path target cap hpath hd habs
    have hdest := not_absolute_of_slash hslash
    rw [isAbsolute, Bool.or_comm] at hdest
    simp only [ruleLocation, hdest, if_false, Bool.false_eq_true]
    cases (expand target path cap).contains 63 with
    | true => exact originOf_sameHost hslash
    | false =>
      simp only [List.append_assoc _ (expand target path cap) query]
      exact originOf_sameHost (hslash.trans (List.prefix_append _ query))

/-- A leading slash is in front when what follows has none. -/
theorem slash_of_append {a b : Str} (h : str "/" <+: a ++ b) (hb : b.head? ≠ some 47) : str "/" <+: a := by
  rw [str_slash] at h ⊢
  cases a with
  | nil =>
    obtain ⟨t, rfl⟩ := h
    exact absurd rfl hb
  | cons c a => simpa using h

theorem slash_canonicalForm {decoded canon : Str} (h : str "/" <+: decoded) (hc : canonicalForm decoded = some canon) :
    str "/" <+: canon := by
  unfold canonicalForm at hc
  obtain ⟨stem, hstem, rfl⟩ := Option.map_eq_some_iff.1 hc
  have hsplit := List.isSuffixOf?_eq_some_iff_append_eq.1 hstem
  rw [← hsplit] at h
  have hslash := slash_of_append h (by decide)
  cases hdir : (str "index").isSuffixOf? stem with
  | none => exact hslash.trans (List.prefix_append _ _)
  | some dir =>
    simp only
    split
    · have hdirsplit := List.isSuffixOf?_eq_some_iff_append_eq.1 hdir
      rw [← hdirsplit] at hslash
      exact slash_of_append hslash (by decide)
    · exact hslash.trans (List.prefix_append _ _)

theorem slash_percentEncodePath {s : Str} (h : str "/" <+: s) : str "/" <+: percentEncodePath s := by
  obtain ⟨t, rfl⟩ := h
  rw [percentEncodePath, List.flatMap_append]
  exact List.prefix_append _ _

/-- Decoding keeps a leading slash. -/
theorem slash_percentDecode {decoded : Str} (h : str "/" <+: path)
    (hd : (percentDecode path).bind fromUtf8 = some decoded) : str "/" <+: decoded := by
  obtain ⟨t, rfl⟩ := h
  obtain ⟨bytes, hbytes, hutf8⟩ := Option.bind_eq_some_iff.1 hd
  have heq : decoded = bytes := by
    unfold fromUtf8 at hutf8
    split at hutf8
    · exact (Option.some.inj hutf8).symm
    · cases hutf8
  rw [str_slash, List.singleton_append] at hbytes
  have hcons : percentDecode (47 :: t) = (percentDecode t).map (47 :: ·) := rfl
  rw [hcons] at hbytes
  obtain ⟨rest, -, rfl⟩ := Option.map_eq_some_iff.1 hbytes
  rw [heq, str_slash]
  exact List.prefix_append [47] rest

/-- A same-host Location that no rule decides. -/
theorem originOf_unruled (hd : site.redirects.decision path = none) {rest : Str} (hrest : str "/" <+: rest) :
    originOf ((builtOrigin site vhosts hostKey redirectHttps).1 ++ str "://" ++
        (builtOrigin site vhosts hostKey redirectHttps).2 ++ rest) =
      some (expectedOrigin site vhosts hostKey path redirectHttps) ↔
      originKept site vhosts hostKey path redirectHttps = true := by
  unfold expectedOrigin originKept
  simp only [hd]
  exact originOf_sameHost hrest

/-- Every Location of the redirecting stages. -/
theorem originOf_redirectFor (hroot : Rooted site.redirects) {decoded location : Str}
    (hpath : str "/" <+: targetPath target) (hdecoded : str "/" <+: decoded)
    (h : redirectFor site vhosts hostKey target (targetPath target) (targetQuery target) decoded redirectHttps =
      some location) :
    originOf location = some (expectedOrigin site vhosts hostKey (targetPath target) redirectHttps) ↔
      originKept site vhosts hostKey (targetPath target) redirectHttps = true := by
  have hbuilt : (if redirectHttps && !site.forceSsl then
      (str "http", redirectAuthority hostKey vhosts.httpPort (str "80"))
    else (str "https", redirectAuthority hostKey vhosts.httpsPort (str "443"))) =
      builtOrigin site vhosts hostKey redirectHttps := rfl
  unfold redirectFor at h
  rw [hbuilt] at h
  simp only at h
  split at h
  · cases h
  rw [Redirects.resolve_eq] at h
  cases hd : site.redirects.decision (targetPath target) with
  | some d =>
    obtain ⟨rule, cap⟩ := d
    rw [hd] at h
    cases h
    exact originOf_ruleLocation hroot hpath hd (ending_query target)
  | none =>
    rw [hd] at h
    simp only [Option.map_none] at h
    split at h
    · -- the canonical fold, whose path is encoded anew
      rename_i canon hcanon
      cases h
      rw [List.append_assoc _ (percentEncodePath canon)]
      refine originOf_unruled hd ((slash_percentEncodePath (slash_canonicalForm hdecoded ?_)).trans (List.prefix_append _ _))
      split at hcanon
      · exact hcanon
      · cases hcanon
    · split at h
      · -- the upgrade: the target as it was sent, on the site's HTTPS port
        rename_i hforce
        cases h
        have hhttps : builtOrigin site vhosts hostKey redirectHttps =
            (str "https", redirectAuthority hostKey vhosts.httpsPort (str "443")) := by
          rw [Bool.and_eq_true] at hforce
          simp [builtOrigin, hforce.2]
        have htarget : str "/" <+: target := hpath.trans (List.takeWhile_prefix _)
        have hlocation := @originOf_unruled site vhosts hostKey _ redirectHttps hd target htarget
        rw [show str "https://" = str "https" ++ str "://" by decide]
        rwa [hhttps] at hlocation
      · cases h

/-- The Location of a directory redirect, which no rule preceded. -/
theorem originOf_dirLocation (hd : site.redirects.decision path = none) {query decoded : Str} (hdecoded : str "/" <+: decoded) :
    originOf (dirLocation site vhosts hostKey query decoded redirectHttps) =
      some (expectedOrigin site vhosts hostKey path redirectHttps) ↔
      originKept site vhosts hostKey path redirectHttps = true := by
  have hrest : str "/" <+: percentEncodePath decoded ++ (str "/" ++ query) :=
    (slash_percentEncodePath hdecoded).trans (List.prefix_append _ _)
  have hlocation := @originOf_unruled site vhosts hostKey _ redirectHttps hd _ hrest
  have hdir : dirLocation site vhosts hostKey query decoded redirectHttps =
      (builtOrigin site vhosts hostKey redirectHttps).1 ++ str "://" ++
        (builtOrigin site vhosts hostKey redirectHttps).2 ++ percentEncodePath decoded ++ str "/" ++ query := rfl
  rw [hdir]
  simpa only [List.append_assoc] using hlocation

/-- No rule decides a path that no redirecting stage takes, off the ACME prefix. -/
theorem decision_of_redirectFor {decoded query : Str} (hacme : acmePrefix.isPrefixOf decoded = false)
    (h : redirectFor site vhosts hostKey target path query decoded redirectHttps = none) :
    site.redirects.decision path = none := by
  unfold redirectFor at h
  simp only [hacme, Bool.false_eq_true, if_false, Redirects.resolve_eq] at h
  cases hd : site.redirects.decision path with
  | none => rfl
  | some d =>
    rw [hd] at h
    cases h

end

/-! ## Replies -/

/-- A reply that moves nothing: its status is not a 301. -/
def Unmoved (reply : Reply) : Prop := statusOf reply.out ≠ str "301"

/-- A reply of a site to a request: no redirect, or one whose Location has the expected origin exactly
when the origin is kept. -/
def Answers (site : Site) (vhosts : Vhosts) (hostKey path : Str) (redirectHttps : Bool) (reply : Reply) : Prop :=
  Unmoved reply ∨ ∃ location keepAlive,
    reply = say (sendRedirect location keepAlive site.policy.securityHeaders) keepAlive ∧
    (originOf location = some (expectedOrigin site vhosts hostKey path redirectHttps) ↔
      originKept site vhosts hostKey path redirectHttps = true)

section

variable {h : HeaderConfig} {fs : FileSys}

/-- The statuses that are no redirect. -/
theorem statusTexts_unmoved : ∀ code ∈ [200, 304, 400, 404, 405, 500], (dec code).length = 3 ∧ dec code ≠ str "301" := by
  decide

theorem unmoved_of_render {reply : Reply} {r : Response} (hout : reply.out = r.render)
    (hcode : r.code ∈ [200, 304, 400, 404, 405, 500]) : Unmoved reply := by
  obtain ⟨hlen, hne⟩ := statusTexts_unmoved r.code hcode
  rw [Unmoved, hout, statusOf_render r hlen]
  exact hne

theorem unmoved_sendError {code : Nat} {reason : Str} (hcode : code ∈ [200, 304, 400, 404, 405, 500])
    {keepAlive isHead : Bool} {reply : Reply} (hout : reply.out = sendError (buildStatus code reason h.render) keepAlive isHead) :
    Unmoved reply :=
  unmoved_of_render (hout.trans (sendError_render code reason h keepAlive isHead)) hcode

theorem unmoved_fileResponse {c : Compressors} {mime : Str} {data : Bytes} {p : Policy} {url acceptEnc inm : Str}
    {keepAlive isHead : Bool} {content : Bytes} {reply : Reply}
    (hout : reply.out = (fileResponse c mime data p h url acceptEnc inm keepAlive isHead content).render) :
    Unmoved reply := by
  refine unmoved_of_render hout ?_
  unfold fileResponse variantResponse
  simp only
  split
  · show 304 ∈ _
    decide
  · show 200 ∈ _
    decide

theorem unmoved_serveAcmeToken {p : Policy} (hp : PolicyOf h p) (root : Path) (decoded : Str) (keepAlive isHead : Bool) :
    Unmoved (serveAcmeToken fs root decoded keepAlive isHead p) := by
  rcases serveAcmeToken_out fs root decoded keepAlive isHead p h hp.securityHeaders with hout | ⟨body, hout⟩
  · rw [hp.errors] at hout
    exact unmoved_sendError (by decide) hout
  · refine unmoved_of_render hout ?_
    show 200 ∈ _
    decide

theorem unmoved_serveCached {site : Site} (hs : SafeSite h site) {url : Str} {e : Cached}
    (he : site.cache.map.lookup url = some e) (acceptEnc inm : Str) (keepAlive isHead : Bool) :
    Unmoved (serveCached fs e acceptEnc inm keepAlive isHead site.policy) := by
  have hp := hs.policy
  obtain ⟨c, data, rfl | ⟨bd, rfl⟩⟩ := hs.entries url e he
  · rw [serveCached, serveMem_makeCached hp rfl]
    exact unmoved_fileResponse rfl
  · obtain ⟨ns, -, -, hserve⟩ := serveDisk_diskEntry (c := c) hp (rfl : mimeFor url = _) fs data bd acceptEnc inm keepAlive isHead
    rw [serveCached, hserve]
    split
    · exact unmoved_fileResponse rfl
    · cases fs.snapshot (snapshotPath bd ns url) with
      | none =>
        rw [hp.errors]
        exact unmoved_sendError (by decide) rfl
      | some reads => exact unmoved_fileResponse rfl

variable {site : Site} {vhosts : Vhosts} {req : Request} {hostKey : Str} {keepAlive redirectHttps : Bool}

theorem serveContent_answers (hs : SafeSite h site) {decoded : Str} (hdecoded : str "/" <+: decoded)
    (hnone : redirectFor site vhosts hostKey req.target (targetPath req.target) (targetQuery req.target) decoded
      redirectHttps = none) :
    Answers site vhosts hostKey (targetPath req.target) redirectHttps
      (serveContent fs site vhosts req hostKey (targetQuery req.target) decoded keepAlive redirectHttps) := by
  have hp := hs.policy
  unfold serveContent
  simp only
  cases hacme : acmePrefix.isPrefixOf decoded with
  | true =>
    rw [if_pos rfl]
    cases site.root with
    | some root => exact .inl (unmoved_serveAcmeToken hp root decoded keepAlive req.isHead)
    | none =>
      simp only [hp.errors]
      exact .inl (unmoved_sendError (by decide) rfl)
  | false =>
    rw [if_neg Bool.false_ne_true]
    cases hres : resolve site.cache.map decoded with
    | none =>
      simp only [hp.errors]
      exact .inl (unmoved_sendError (by decide) rfl)
    | some r =>
      cases r with
      | entry e =>
        obtain ⟨url, -, he⟩ := List.exists_of_findSome?_eq_some (resolve_entry hres)
        exact .inl (unmoved_serveCached hs he _ _ _ _)
      | dirIndex => exact .inr ⟨_, _, rfl, originOf_dirLocation (decision_of_redirectFor hacme hnone) hdecoded⟩

theorem handleSite_answers (hs : SafeSite h site) (hroot : Rooted site.redirects) :
    Answers site vhosts hostKey (targetPath req.target) redirectHttps
      (handleSite fs site vhosts req hostKey keepAlive redirectHttps) := by
  have hp := hs.policy
  unfold handleSite
  simp only
  split
  · rw [hp.errors]
    exact .inl (unmoved_sendError (by decide) rfl)
  split
  · rw [hp.errors]
    exact .inl (unmoved_sendError (by decide) rfl)
  rename_i hpath
  have hslash : str "/" <+: targetPath req.target := by
    simp only [Bool.or_eq_true, Bool.not_eq_true', not_or, Bool.not_eq_false, decide_eq_true_eq] at hpath
    exact List.isPrefixOf_iff_prefix.1 hpath.1.2
  cases hdec : (percentDecode (targetPath req.target)).bind fromUtf8 with
  | none =>
    rw [hp.errors]
    exact .inl (unmoved_sendError (by decide) rfl)
  | some decoded =>
    have hdecoded := slash_percentDecode hslash hdec
    simp only
    cases hloc : redirectFor site vhosts hostKey req.target (targetPath req.target) (targetQuery req.target) decoded
        redirectHttps with
    | some location => exact .inr ⟨_, _, rfl, originOf_redirectFor hroot hslash hdecoded hloc⟩
    | none => exact serveContent_answers hs hdecoded hloc

end

/-! ## Every request -/

/-- Under a table built from an accepted config, a Location has the origin built from the matched host
and the port, or the one written in its rule's absolute target, exactly when nothing of the request can
move the end of its authority. -/
theorem handleRequest_origin (c : Compressors) (text : Str) (cfg : Config) (hparse : parseConfig text = .ok cfg)
    (history : Nat → World) (seq start : Nat) (vhosts : Vhosts)
    (hbuild : ((buildVhosts c cfg seq : Look Unit _).run history start).value.1 = .ok vhosts) (fs : FileSys)
    (head : Bytes) (wantKa redirectHttps : Bool) (sni : Option Str) :
    Unmoved (handleRequest fs head vhosts wantKa redirectHttps sni) ∨
    ∃ req site, readRequest head = .ok req ∧ vhosts.sites.lookup (normalizeHost req.fields.hostHdr) = some site ∧
      ∃ location keepAlive, handleRequest fs head vhosts wantKa redirectHttps sni =
          say (sendRedirect location keepAlive site.policy.securityHeaders) keepAlive ∧
        (originOf location =
            some (expectedOrigin site vhosts (normalizeHost req.fields.hostHdr) (targetPath req.target) redirectHttps) ↔
          originKept site vhosts (normalizeHost req.fields.hostHdr) (targetPath req.target) redirectHttps = true) := by
  have hfrom := (buildVhosts_from (E := Unit) seq start).2 vhosts hbuild
  have hclean := parseConfig_clean hparse
  unfold handleRequest
  cases hreq : readRequest head with
  | error isHead =>
    simp only [hfrom.errors]
    exact .inl (unmoved_sendError (by decide) rfl)
  | ok req =>
    simp only
    unfold handleAccepted
    simp only
    split
    · rw [hfrom.errors]
      exact .inl (unmoved_sendError (by decide) rfl)
    cases hsite : vhosts.sites.lookup (normalizeHost req.fields.hostHdr) with
    | none =>
      simp only [hfrom.errors]
      exact .inl (unmoved_sendError (by decide) rfl)
    | some site =>
      obtain ⟨s, hs, -, hsf⟩ := hfrom.sites.site _ _ hsite
      have hroot : Rooted site.redirects := hsf.redirects ▸ rooted_of_accepted hparse s hs
      refine (handleSite_answers (safeSite_of_from hclean hs hsf) hroot).imp_right ?_
      rintro ⟨location, keepAlive, hreply, horigin⟩
      exact ⟨req, site, rfl, hsite, location, keepAlive, hreply, horigin⟩

/-- A rule whose target goes on with the capture right after its host, and one that ends the host first. -/
def captureConfig : Str :=
  str ("listen = [::]:443\nsite a.example \x7b\n cert = /c\n key = /k\n redirect /a/* -> https://example.com$1\n" ++
    " redirect /b/* -> https://example.com/$1\n\x7d\n")

def captureHead (target : Str) : Bytes := str "GET " ++ target ++ str " HTTP/1.1\r\nHost: a.example\r\n\r\n"

/-- A check of the table this config builds when no file can be read. -/
def captureBuilds (check : Vhosts → Bool) : Bool :=
  (parseConfig captureConfig).toOption.any fun cfg =>
    ((buildVhosts ⟨fun b _ => b, fun b _ => b⟩ cfg 0 : Look Unit _).run (fun _ => .empty) 0).value.1.toOption.any check

/-- A redirect whose origin is kept. -/
theorem handleRequest_origin_kept :
    ∃ cfg vhosts req site, parseConfig captureConfig = .ok cfg ∧
      ((buildVhosts ⟨fun b _ => b, fun b _ => b⟩ cfg 0 : Look Unit _).run (fun _ => .empty) 0).value.1 = .ok vhosts ∧
      readRequest (captureHead (str "/b/.evil.example")) = .ok req ∧
      vhosts.sites.lookup (str "a.example") = some site ∧
      ∃ location keepAlive,
        handleRequest ⟨fun _ => none, fun _ => none, fun _ => none⟩ (captureHead (str "/b/.evil.example")) vhosts true false
            none = say (sendRedirect location keepAlive site.policy.securityHeaders) keepAlive ∧
        originOf location = some (str "https", str "example.com") := by
  have hcheck : captureBuilds (fun vhosts =>
      (statusOf (handleRequest ⟨fun _ => none, fun _ => none, fun _ => none⟩ (captureHead (str "/b/.evil.example")) vhosts
          true false none).out == str "301") &&
        (readRequest (captureHead (str "/b/.evil.example"))).toOption.any fun req =>
          (normalizeHost req.fields.hostHdr == str "a.example") && (targetPath req.target == str "/b/.evil.example") &&
          (vhosts.sites.lookup (str "a.example")).any fun site =>
            originKept site vhosts (str "a.example") (str "/b/.evil.example") false &&
              (expectedOrigin site vhosts (str "a.example") (str "/b/.evil.example") false ==
                (str "https", str "example.com"))) = true := by
    decide +kernel
  obtain ⟨cfg, vhosts, hcfg, hbuild, hok⟩ := built_of_any hcheck
  rw [Bool.and_eq_true, beq_iff_eq] at hok
  obtain ⟨req, hreq, hrest⟩ := ok_of_any hok.2
  simp only [Bool.and_eq_true, beq_iff_eq, Option.any_eq_true] at hrest
  obtain ⟨⟨hhost, hpath⟩, site, hsite, hkept, hexpected⟩ := hrest
  rcases handleRequest_origin _ captureConfig cfg hcfg (fun _ => .empty) 0 0 vhosts hbuild
      ⟨fun _ => none, fun _ => none, fun _ => none⟩ (captureHead (str "/b/.evil.example")) true false none with
    hun | ⟨req', site', hreq', hsite', location, keepAlive, hreply, horigin⟩
  · exact absurd hok.1 hun
  · cases hreq.symm.trans hreq'
    rw [hhost] at hsite' horigin
    cases hsite.symm.trans hsite'
    rw [hpath, hexpected] at horigin
    exact ⟨cfg, vhosts, req, site, hcfg, hbuild, hreq, hsite, location, keepAlive, hreply, horigin.2 hkept⟩

/-- The capture of the first rule goes on where the host of its target stops: the Location leads to a
host that is neither the target's nor the one asked for. -/
theorem capture_extends_authority :
    ∃ cfg vhosts site, parseConfig captureConfig = .ok cfg ∧
      ((buildVhosts ⟨fun b _ => b, fun b _ => b⟩ cfg 0 : Look Unit _).run (fun _ => .empty) 0).value.1 = .ok vhosts ∧
      vhosts.sites.lookup (str "a.example") = some site ∧
      handleRequest ⟨fun _ => none, fun _ => none, fun _ => none⟩ (captureHead (str "/a/.evil.example")) vhosts true false
          none = say (sendRedirect (str "https://example.com.evil.example") true site.policy.securityHeaders) true ∧
      originOf (str "https://example.com.evil.example") = some (str "https", str "example.com.evil.example") ∧
      expectedOrigin site vhosts (str "a.example") (str "/a/.evil.example") false = (str "https", str "example.com") ∧
      builtOrigin site vhosts (str "a.example") false = (str "https", str "a.example") := by
  have hcheck : captureBuilds (fun vhosts => (vhosts.sites.lookup (str "a.example")).any fun site =>
      (handleRequest ⟨fun _ => none, fun _ => none, fun _ => none⟩ (captureHead (str "/a/.evil.example")) vhosts true false
          none == say (sendRedirect (str "https://example.com.evil.example") true site.policy.securityHeaders) true) &&
        (expectedOrigin site vhosts (str "a.example") (str "/a/.evil.example") false == (str "https", str "example.com")) &&
        (builtOrigin site vhosts (str "a.example") false == (str "https", str "a.example"))) = true := by
    decide +kernel
  obtain ⟨cfg, vhosts, hcfg, hbuild, hok⟩ := built_of_any hcheck
  simp only [Option.any_eq_true, Bool.and_eq_true, beq_iff_eq] at hok
  obtain ⟨site, hsite, ⟨hreply, hexpected⟩, hhost⟩ := hok
  exact ⟨cfg, vhosts, site, hcfg, hbuild, hsite, hreply, by decide, hexpected, hhost⟩

end BareServer
