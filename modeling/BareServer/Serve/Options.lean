/-
The `Connection` options of a request. They are read in order, over all its Connection lines, and each
one overrides those before it. So the option `close` ends the connection exactly where no `keep-alive`
comes after its last occurrence.
-/
import BareServer.Serve.Persistence
import BareServer.Serve.Values

namespace BareServer

open BareServer.Lib

/-! ## The options of a head -/

def isClose (tok : Str) : Bool := eqIgnoreCase (trim tok) (str "close")

def isKeepAlive (tok : Str) : Bool := eqIgnoreCase (trim tok) (str "keep-alive")

/-- The comma-separated options of all Connection lines of a head, in order. -/
def connectionTokens (head : Bytes) : List Str :=
  (fieldValues (str "connection") (heading (splitCrlf head).tail)).flatMap (·.splitOn 44)

/-- No `keep-alive` comes after some `close`. -/
def CloseLast (toks : List Str) : Prop :=
  ∃ pre tok post, toks = pre ++ tok :: post ∧ isClose tok = true ∧ ∀ t ∈ post, isKeepAlive t = false

theorem connectionOptions_cons (k : Bool) (tok : Str) (toks : List Str) :
    connectionOptions k (tok :: toks) = connectionOptions (if isClose tok then false else if isKeepAlive tok then true else k) toks := by
  rw [connectionOptions, isClose, isKeepAlive]
  split
  · rfl
  · split <;> rfl

theorem connectionOptions_false {toks : List Str} (h : ∀ t ∈ toks, isKeepAlive t = false) :
    connectionOptions false toks = false := by
  induction toks with
  | nil => rfl
  | cons tok toks ih =>
    rw [connectionOptions_cons, h tok List.mem_cons_self]
    simpa using ih fun t ht => h t (List.mem_cons_of_mem _ ht)

theorem connectionOptions_closeLast {toks : List Str} (h : CloseLast toks) (k : Bool) : connectionOptions k toks = false := by
  obtain ⟨pre, tok, post, rfl, hclose, hpost⟩ := h
  rw [connectionOptions_append, connectionOptions_cons, hclose, if_pos rfl]
  exact connectionOptions_false hpost

/-- Of options with a `close` among them, those read as a close have no later `keep-alive`. -/
theorem closeLast_of_false {toks : List Str} (hclose : ∃ t ∈ toks, isClose t = true) {k : Bool}
    (h : connectionOptions k toks = false) : CloseLast toks := by
  -- from the last option backwards
  induction toks using List.reverseRecOn with
  | nil => simp at hclose
  | append_singleton toks tok ih =>
    by_cases hc : isClose tok = true
    · exact ⟨toks, tok, [], rfl, hc, nofun⟩
    rw [connectionOptions_append, connectionOptions_cons, if_neg hc] at h
    have hka : isKeepAlive tok = false := by
      by_contra hka
      rw [Bool.not_eq_false] at hka
      rw [hka] at h
      cases h
    have hmem : ∃ t ∈ toks, isClose t = true := by
      obtain ⟨t, ht, htc⟩ := hclose
      rcases List.mem_append.1 ht with ht | ht
      · exact ⟨t, ht, htc⟩
      · rw [List.mem_singleton.1 ht] at htc
        exact absurd htc hc
    rw [hka] at h
    obtain ⟨pre, t, post, rfl, htc, hpost⟩ := ih hmem h
    refine ⟨pre, t, post ++ [tok], by simp, htc, fun u hu => ?_⟩
    rcases List.mem_append.1 hu with hu | hu
    · exact hpost u hu
    · rw [List.mem_singleton.1 hu]
      exact hka

/-- What an accepted head says of the connection is what its options say. -/
theorem keepAlive_of_readRequest {head : Bytes} {req : Request} (h : readRequest head = .ok req) :
    req.fields.keepAlive = connectionOptions (req.version == str "HTTP/1.1") (connectionTokens head) := by
  have hfields := (readRequest_ok h).fields
  rw [fieldLines_heading] at hfields
  exact (says_lines hfields).keepAlive

/-! ## The replies -/

/-- The response says that the connection is closed, and what is returned closes it; a failed read of a
file returns nothing. -/
def Reply.Closes (r : Reply) : Prop := r.SaysClose ∧ (r.result ≠ none → r.result = some false)

theorem Reply.Agrees.closes {r : Reply} (h : r.Agrees false) : r.Closes := by
  obtain ⟨keepAlive, htold, hallowed, hres⟩ := h
  have hk : keepAlive = false := by
    by_contra hk
    exact Bool.noConfusion (hallowed (by simpa using hk))
  subst hk
  refine ⟨htold, fun hne => ?_⟩
  rcases hres with hres | ⟨hres, -⟩
  · exact hres
  · exact absurd hres hne

/-- Some name that a host key is not. -/
theorem exists_other (hostKey : Str) : ∃ s, (s != hostKey) = true := by
  by_cases h : hostKey = str "a.example"
  · exact ⟨str "b.example", by rw [h]; decide⟩
  · exact ⟨str "a.example", by simpa using Ne.symm h⟩

/-- A head that asks to keep the connection keeps it on a connection made for another name. -/
theorem exists_keeps {head : Bytes} {req : Request} (hreq : readRequest head = .ok req) (hka : req.fields.keepAlive = true)
    {c : Compressors} {cfg : Config} {vhosts : Vhosts} (hfrom : VhostsFrom c cfg vhosts) (hc : cfg.Clean) (fs : FileSys) :
    ∃ sni, ¬ (handleRequest fs head vhosts true false sni).Closes := by
  obtain ⟨s, hs⟩ := exists_other (normalizeHost req.fields.hostHdr)
  refine ⟨some s, fun h => ?_⟩
  have hsays : (handleRequest fs head vhosts true false (some s)).SaysKeepAlive := by
    unfold handleRequest handleAccepted
    rw [hreq]
    simp only [hka, Bool.and_true, Option.map_some, hs, Option.getD_some, if_true]
    exact hfrom.page hc (by simp [ErrorPages.pages])
  have hcloses := h.1
  rw [Reply.SaysClose, hsays] at hcloses
  exact absurd hcloses (by decide)

/-- There is an accepted config and a table built from it. -/
theorem exists_table : ∃ (c : Compressors) (text : Str) (cfg : Config) (vhosts : Vhosts),
    parseConfig text = .ok cfg ∧ VhostsFrom c cfg vhosts := by
  obtain ⟨cfg, vhosts, hcfg, hbuild⟩ := oneRule_built
  exact ⟨_, oneRule, cfg, vhosts, hcfg, (buildVhosts_from 0 0).2 vhosts hbuild⟩

/-- For every accepted head with the option `close`: every response to it says that the connection is closed,
and every result closes it, exactly when no `keep-alive` comes after the last `close`. -/
theorem close_wins_iff {head : Bytes} {req : Request} (hreq : readRequest head = .ok req)
    (hclose : ∃ t ∈ connectionTokens head, isClose t = true) :
    (∀ c text cfg vhosts, parseConfig text = .ok cfg → VhostsFrom c cfg vhosts → ∀ fs wantKa redirectHttps sni,
      (handleRequest fs head vhosts wantKa redirectHttps sni).Closes) ↔ CloseLast (connectionTokens head) := by
  have hread := keepAlive_of_readRequest hreq
  constructor
  · intro h
    obtain ⟨c, text, cfg, vhosts, hparse, hfrom⟩ := exists_table
    cases hka : req.fields.keepAlive with
    | false => exact closeLast_of_false hclose (hread.symm.trans hka)
    | true =>
      obtain ⟨sni, hnot⟩ := exists_keeps hreq hka hfrom (parseConfig_clean hparse) ⟨fun _ => none, fun _ => none, fun _ => none⟩
      exact absurd (h c text cfg vhosts hparse hfrom _ true false sni) hnot
  · intro h c text cfg vhosts hparse hfrom fs wantKa redirectHttps sni
    have hagrees := hfrom.agrees_accepted (parseConfig_clean hparse) (parseConfig_oneLine hparse) fs hreq wantKa redirectHttps sni
    rw [hread, connectionOptions_closeLast h, Bool.false_and] at hagrees
    exact hagrees.closes

/-- The head of a GET with a `Connection` field. -/
def optionsHead (options : Str) : Bytes :=
  str "GET / HTTP/1.1\r\nHost: a.example\r\nConnection: " ++ options ++ str "\r\n\r\n"

/-- `close` after `keep-alive` wins. -/
theorem close_wins_last : ∃ req, readRequest (optionsHead (str "keep-alive, close")) = .ok req ∧
    ∀ c text cfg vhosts, parseConfig text = .ok cfg → VhostsFrom c cfg vhosts → ∀ fs wantKa redirectHttps sni,
      (handleRequest fs (optionsHead (str "keep-alive, close")) vhosts wantKa redirectHttps sni).Closes := by
  have hread : (readRequest (optionsHead (str "keep-alive, close"))).toOption.any (fun _ => true) = true := by decide +kernel
  have hlast : connectionTokens (optionsHead (str "keep-alive, close")) = [str "keep-alive", str " close"] := by
    decide +kernel
  have hclose : isClose (str " close") = true := by decide +kernel
  obtain ⟨req, hreq, -⟩ := ok_of_any hread
  refine ⟨req, hreq, (close_wins_iff hreq ⟨str " close", ?_, hclose⟩).2 ⟨[str "keep-alive"], str " close", [], ?_, hclose, nofun⟩⟩
  · rw [hlast]
    simp
  · exact hlast

/-- `keep-alive` after `close` keeps the connection. -/
theorem close_overridden : ∃ req, readRequest (optionsHead (str "close, keep-alive")) = .ok req ∧
    (∃ t ∈ connectionTokens (optionsHead (str "close, keep-alive")), isClose t = true) ∧
    ∃ c text cfg vhosts fs sni, parseConfig text = .ok cfg ∧ VhostsFrom c cfg vhosts ∧
      ¬ (handleRequest fs (optionsHead (str "close, keep-alive")) vhosts true false sni).Closes := by
  have hread : (readRequest (optionsHead (str "close, keep-alive"))).toOption.any (fun req => req.fields.keepAlive) = true := by
    decide +kernel
  have htokens : connectionTokens (optionsHead (str "close, keep-alive")) = [str "close", str " keep-alive"] := by
    decide +kernel
  have hclose : isClose (str "close") = true := by decide +kernel
  obtain ⟨req, hreq, hka⟩ := ok_of_any hread
  obtain ⟨c, text, cfg, vhosts, hparse, hfrom⟩ := exists_table
  obtain ⟨sni, hnot⟩ := exists_keeps hreq hka hfrom (parseConfig_clean hparse) ⟨fun _ => none, fun _ => none, fun _ => none⟩
  refine ⟨req, hreq, ⟨str "close", ?_, hclose⟩, c, text, cfg, vhosts, _, sni, hparse, hfrom, hnot⟩
  rw [htokens]
  exact List.mem_cons_self

end BareServer
