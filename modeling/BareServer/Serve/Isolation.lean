/-
What one connection can see of the virtual-host table: under a given SNI, the entry of that name, the
ports and the server's own errors, and nothing else.
-/
import BareServer.Serve.Handle

namespace BareServer

open BareServer.Lib

/-! ## Views -/

/-- The table reduced to the entry of one name. -/
def Vhosts.only (vhosts : Vhosts) (name : Str) : Vhosts :=
  { vhosts with sites := ((vhosts.sites.lookup name).map (AList.singleton name)).getD ∅ }

/-- One of the precomputed answers that go out before any site is known. -/
def ServerError (errors : ErrorPages) (out : Bytes) : Prop :=
  ∃ page ∈ [errors.badRequest, errors.notFound, errors.methodNotAllowed, errors.internalError],
    ∃ keepAlive isHead, out = sendError page keepAlive isHead

/-- Two tables that look the same from a connection made for `name`. -/
structure SameView (name : Str) (v v' : Vhosts) : Prop where
  entry : v.sites.lookup name = v'.sites.lookup name
  httpsPort : v.httpsPort = v'.httpsPort
  httpPort : v.httpPort = v'.httpPort
  errors : v.errors = v'.errors

/-- Two tables with the same ports. -/
structure SamePorts (v v' : Vhosts) : Prop where
  https : v.httpsPort = v'.httpsPort
  http : v.httpPort = v'.httpPort

theorem SameView.ports {name : Str} {v v' : Vhosts} (h : SameView name v v') : SamePorts v v' :=
  ⟨h.httpsPort, h.httpPort⟩

/-- The reduced table has one entry at most. -/
theorem only_lookup (vhosts : Vhosts) (name other : Str) :
    (vhosts.only name).sites.lookup other = if other = name then vhosts.sites.lookup name else none := by
  unfold Vhosts.only
  cases vhosts.sites.lookup name with
  | none => simp
  | some site =>
    split
    · rename_i he
      subst he
      exact List.dlookup_cons_eq _ _ _
    · rename_i hne
      exact List.dlookup_cons_ne _ _ hne

/-- A name sees of its reduced table what it sees of the whole one. -/
theorem sameView_only (vhosts : Vhosts) (name : Str) : SameView name vhosts (vhosts.only name) :=
  ⟨by rw [only_lookup, if_pos rfl], rfl, rfl, rfl⟩

/-! ## One site -/

section

variable {v v' : Vhosts} (h : SamePorts v v') (site : Site) (hostKey : Str) (redirectHttps : Bool)

include h

theorem redirectFor_ports (target path query decoded : Str) :
    redirectFor site v hostKey target path query decoded redirectHttps =
      redirectFor site v' hostKey target path query decoded redirectHttps := by
  unfold redirectFor
  rw [h.https, h.http]

theorem dirLocation_ports (query decoded : Str) :
    dirLocation site v hostKey query decoded redirectHttps = dirLocation site v' hostKey query decoded redirectHttps := by
  unfold dirLocation
  rw [h.https, h.http]

theorem serveContent_ports (fs : FileSys) (req : Request) (query decoded : Str) (keepAlive : Bool) :
    serveContent fs site v req hostKey query decoded keepAlive redirectHttps =
      serveContent fs site v' req hostKey query decoded keepAlive redirectHttps := by
  unfold serveContent
  rw [dirLocation_ports h]

/-- A site's answer depends on the table through the ports alone. -/
theorem handleSite_ports (fs : FileSys) (req : Request) (keepAlive : Bool) :
    handleSite fs site v req hostKey keepAlive redirectHttps =
      handleSite fs site v' req hostKey keepAlive redirectHttps := by
  unfold handleSite
  simp only [redirectFor_ports h, serveContent_ports h]

end

/-! ## One connection -/

/-- An accepted request gets the server's 404, or names the SNI and the entry of that name answers it. -/
theorem handleAccepted_cases (fs : FileSys) (v : Vhosts) (req : Request) (keepAlive redirectHttps : Bool) (s : Str) :
    handleAccepted fs v req keepAlive redirectHttps (some s) = say (sendError v.errors.notFound keepAlive req.isHead) keepAlive ∧
        (normalizeHost req.fields.hostHdr = s → v.sites.lookup s = none) ∨
    ∃ site, normalizeHost req.fields.hostHdr = s ∧ v.sites.lookup s = some site ∧
      handleAccepted fs v req keepAlive redirectHttps (some s) = handleSite fs site v req s keepAlive redirectHttps := by
  unfold handleAccepted
  simp only [Option.map_some, Option.getD_some, bne_iff_ne]
  by_cases hs : s = normalizeHost req.fields.hostHdr
  · rw [if_neg (by simpa using hs), ← hs]
    cases hsite : v.sites.lookup s with
    | none => exact .inl ⟨rfl, fun _ => rfl⟩
    | some site => exact .inr ⟨site, rfl, rfl, rfl⟩
  · rw [if_pos hs]
    exact .inl ⟨rfl, fun he => absurd he.symm hs⟩

/-- Tables that look the same answer the same. -/
theorem SameView.handleAccepted {s : Str} {v v' : Vhosts} (h : SameView s v v') (fs : FileSys) (req : Request)
    (keepAlive redirectHttps : Bool) :
    BareServer.handleAccepted fs v req keepAlive redirectHttps (some s) =
      BareServer.handleAccepted fs v' req keepAlive redirectHttps (some s) := by
  rcases handleAccepted_cases fs v req keepAlive redirectHttps s with ⟨he, hno⟩ | ⟨site, hs, hsite, he⟩ <;>
    rcases handleAccepted_cases fs v' req keepAlive redirectHttps s with ⟨he', hno'⟩ | ⟨site', hs', hsite', he'⟩ <;>
    rw [he, he']
  · rw [h.errors]
  · rw [h.entry, hsite'] at hno
    cases hno hs'
  · rw [← h.entry, hsite] at hno'
    cases hno' hs
  · rw [h.entry, hsite'] at hsite
    cases hsite
    exact handleSite_ports h.ports site s redirectHttps fs req keepAlive

theorem SameView.handleRequest {s : Str} {v v' : Vhosts} (h : SameView s v v') (fs : FileSys) (head : Bytes)
    (wantKa redirectHttps : Bool) :
    BareServer.handleRequest fs head v wantKa redirectHttps (some s) =
      BareServer.handleRequest fs head v' wantKa redirectHttps (some s) := by
  unfold BareServer.handleRequest
  cases readRequest head with
  | error isHead => simp only [h.errors]
  | ok req => exact h.handleAccepted fs req _ redirectHttps

/-- Under an SNI every answer is one of the server's own errors, or its request names the SNI and the
table reduced to that name answers the same; and nothing tells apart two tables that agree on that
entry, the ports and the server's errors. -/
theorem handleRequest_isolated (fs : FileSys) (head : Bytes) (vhosts : Vhosts) (wantKa redirectHttps : Bool) (s : Str) :
    (¬ ServerError vhosts.errors (handleRequest fs head vhosts wantKa redirectHttps (some s)).out →
      (∃ req, readRequest head = .ok req ∧ normalizeHost req.fields.hostHdr = s) ∧
        handleRequest fs head vhosts wantKa redirectHttps (some s) =
          handleRequest fs head (vhosts.only s) wantKa redirectHttps (some s)) ∧
    ∀ vhosts', SameView s vhosts vhosts' →
      handleRequest fs head vhosts wantKa redirectHttps (some s) =
        handleRequest fs head vhosts' wantKa redirectHttps (some s) := by
  refine ⟨fun hno => ⟨?_, (sameView_only vhosts s).handleRequest fs head wantKa redirectHttps⟩,
    fun vhosts' h => h.handleRequest fs head wantKa redirectHttps⟩
  unfold handleRequest at hno
  cases hreq : readRequest head with
  | error isHead =>
    rw [hreq] at hno
    exact absurd ⟨_, by simp, _, _, rfl⟩ hno
  | ok req =>
    rw [hreq] at hno
    refine ⟨req, rfl, ?_⟩
    rcases handleAccepted_cases fs vhosts req (req.fields.keepAlive && wantKa) redirectHttps s with ⟨he, -⟩ | ⟨_, hs, -⟩
    · simp only [he] at hno
      exact absurd ⟨vhosts.errors.notFound, by simp, _, _, rfl⟩ hno
    · exact hs

/-- A site without files that redirects to HTTPS, its own policy in every answer. -/
def upgradingSite (id : Nat) : Site :=
  ⟨id, none, .empty, true, false, default, .withHeaders .default .default .memory (str "/cache")⟩

/-- Two hosts, each with a site of its own. -/
def twoHosts : Vhosts where
  sites := ((∅ : Sites).insert (str "a.example") (upgradingSite 0)).insert (str "b.example") (upgradingSite 1)
  httpsPort := str "443"
  httpPort := str "80"
  errors := .new (str "X: y\r\n")

def unreadable : FileSys := ⟨fun _ => none, fun _ => none, fun _ => none⟩

/-- A host in upper case with a port, upgraded under its own SNI; the other host is not in sight. -/
theorem handleRequest_isolated_upgrade :
    let head := str "GET /x HTTP/1.1\r\nHost: A.Example:8080\r\n\r\n"
    ¬ ServerError twoHosts.errors (handleRequest unreadable head twoHosts true true (some (str "a.example"))).out ∧
    (∃ req, readRequest head = .ok req ∧ normalizeHost req.fields.hostHdr = str "a.example") ∧
    handleRequest unreadable head twoHosts true true (some (str "a.example")) =
      handleRequest unreadable head (twoHosts.only (str "a.example")) true true (some (str "a.example")) := by
  intro head
  have hno : ¬ ServerError twoHosts.errors
      (handleRequest unreadable head twoHosts true true (some (str "a.example"))).out := by
    unfold ServerError
    decide +kernel
  exact ⟨hno, (handleRequest_isolated unreadable head twoHosts true true (str "a.example")).1 hno⟩

end BareServer
