/-
Whether a connection goes on: the requests of a connection told apart, what was sent for each on a stream whose
calls may fail, and how the connection ends.
-/
import BareServer.Serve.LoopSpec
import BareServer.Serve.Persistence
import BareServer.Serve.Written

namespace BareServer

open BareServer.Lib

/-! ## Sessions -/

/-- A request head, what was sent for it, whether a call failed, and what handling it returned. -/
structure Exchange where
  head : Bytes
  sent : Bytes
  failed : Bool
  result : Option Bool

/-- What was sent says that the connection is kept. -/
def Exchange.SaysKeepAlive (x : Exchange) : Prop := Response.valuesOf (str "connection") x.sent = [str "keep-alive"]

/-- What was sent says that the connection is closed. -/
def Exchange.SaysClose (x : Exchange) : Prop := Response.valuesOf (str "connection") x.sent = [str "close"]

instance (x : Exchange) : Decidable x.SaysKeepAlive := inferInstanceAs (Decidable (_ = _))

instance (x : Exchange) : Decidable x.SaysClose := inferInstanceAs (Decidable (_ = _))

/-- A reply was sent whole, or a call failed and a part of it was sent. -/
structure Exchange.Carries (x : Exchange) (r : Reply) : Prop where
  whole : x.failed = false → x.sent = r.out ∧ x.result = r.result
  cut : x.failed = true → x.sent <+: r.out ∧ x.result = none

/-- How a connection ends: at its deadline; waiting for a head with this much buffered and these arrivals
to come, after this much of a last page, whether a call failed; with its last reply; or at the last request allowed. -/
inductive Closing where
  | expired
  | noHead (buf : Bytes) (arrivals : List (Option Bytes)) (sent : Bytes) (failed : Bool)
  | returned
  | cap

/-- What is sent after the last reply. -/
def Closing.sent : Closing → Bytes
  | noHead _ _ sent _ => sent
  | _ => []

/-- Was the last page cut short? -/
def Closing.failed : Closing → Bool
  | noHead _ _ _ failed => failed
  | _ => false

/-- The requests of a connection and its end. -/
structure Session where
  exchanges : List Exchange
  closing : Closing

/-- The request loop, telling the requests apart. -/
def sessionFrom (fs : FileSys) (vhosts : Vhosts) (redirectHttps : Bool) (sni : Option Str) (dl : Deadlines) (reqs : Nat) :
    Nat → Bytes → List (Option Bytes) → Wire → Session
  | 0, _, _, _ => ⟨[], .cap⟩
  | left + 1, buf, arrivals, w =>
    if dl.connection reqs then ⟨[], .expired⟩
    else
      match awaitHead vhosts.errors (dl.head reqs) buf 0 arrivals with
      | .stop page =>
        let w' := ((Written.sendLast page).exec w).2
        ⟨[], .noHead buf arrivals (w.since w') w'.failed⟩
      | .head headEnd buf rest =>
        let (result, w') := (Written.handleRequest fs (buf.take headEnd) vhosts (decide (reqs + 1 < maxReqsPerConn))
          redirectHttps sni).exec w
        let x : Exchange := ⟨buf.take headEnd, w.since w', w'.failed, result⟩
        if result = some true then
          let s := sessionFrom fs vhosts redirectHttps sni dl (reqs + 1) left (buf.drop headEnd) rest w'
          ⟨x :: s.exchanges, s.closing⟩
        else ⟨[x], .returned⟩

/-- A connection whose calls go as `fates` says. -/
def session (fs : FileSys) (vhosts : Vhosts) (buf : Bytes) (redirectHttps : Bool) (sni : Option Str) (dl : Deadlines)
    (arrivals : List (Option Bytes)) (fates : List (Option Nat)) : Session :=
  sessionFrom fs vhosts redirectHttps sni dl 0 maxReqsPerConn buf arrivals ⟨[], false, fates⟩

/-- Why waiting for a head gives none: what has arrived holds no head within the limit, a deadline passed
before one was there, or the stream ended or failed before one was there. -/
inductive NoHead (errs : ErrorPages) (due : Nat → Bool) (buf : Bytes) (arrivals : List (Option Bytes)) : Bytes → Prop
  | oversized (read : List Bytes) (rest : List (Option Bytes)) (h : arrivals = read.map some ++ rest)
      (hlen : maxHeaderBytes ≤ (buf ++ read.flatten).length)
      (hpast : ∀ p, crlfcrlf <+: (buf ++ read.flatten).drop p → maxHeaderBytes < p + crlfcrlf.length) :
      NoHead errs due buf arrivals (sendError errs.headersTooLarge false false)
  | late (read : List Bytes) (rest : List (Option Bytes)) (h : arrivals = read.map some ++ rest)
      (hnone : NoneWithin (buf ++ read.flatten) (buf ++ read.flatten).length) (hdue : due rest.length = true) :
      NoHead errs due buf arrivals (sendError errs.requestTimeout false false)
  | ended (read : List Bytes) (rest : List (Option Bytes)) (h : arrivals = read.map some ++ rest)
      (hnone : NoneWithin (buf ++ read.flatten) (buf ++ read.flatten).length)
      (hend : rest = [] ∨ rest.head? = some none ∨ rest.head? = some (some [])) :
      NoHead errs due buf arrivals []

/-- Why request `n` is not reached. The last page is sent whole, or a part of it when a call fails. -/
inductive Stops (errs : ErrorPages) (dl : Deadlines) (n : Nat) : Closing → Prop
  | expired (h : dl.connection n = true) : Stops errs dl n .expired
  | noHead {buf : Bytes} {arrivals : List (Option Bytes)} {page sent : Bytes} {failed : Bool}
      (h : NoHead errs (dl.head n) buf arrivals page) (hwhole : failed = false → sent = page)
      (hcut : failed = true → sent <+: page) : Stops errs dl n (.noHead buf arrivals sent failed)

/-- The requests from number `n` on: each but the last keeps the connection and is not the last one
allowed, and only the last may close it. -/
inductive Goes (errs : ErrorPages) (dl : Deadlines) : Nat → Session → Prop
  | stop {n : Nat} {closing : Closing} (h : Stops errs dl n closing) : Goes errs dl n ⟨[], closing⟩
  | last {n : Nat} {x : Exchange} (h : x.result ≠ some true) : Goes errs dl n ⟨[x], .returned⟩
  | next {n : Nat} {x : Exchange} {s : Session} (h : x.result = some true) (hn : n + 1 < maxReqsPerConn)
      (hs : Goes errs dl (n + 1) s) : Goes errs dl n ⟨x :: s.exchanges, s.closing⟩

section

variable {errs : ErrorPages} {due : Nat → Bool} {dl : Deadlines}

theorem NoHead.more {buf r : Bytes} {arrivals : List (Option Bytes)} {out : Bytes} (h : NoHead errs due (buf ++ r) arrivals out) :
    NoHead errs due buf (some r :: arrivals) out := by
  cases h with
  | oversized read rest h hlen hpast =>
    rw [List.append_assoc] at hlen hpast
    exact .oversized (r :: read) rest (by rw [h]; rfl) hlen hpast
  | late read rest h hnone hdue =>
    rw [List.append_assoc] at hnone
    exact .late (r :: read) rest (by rw [h]; rfl) hnone hdue
  | ended read rest h hnone hend =>
    rw [List.append_assoc] at hnone
    exact .ended (r :: read) rest (by rw [h]; rfl) hnone hend

/-- One look at the buffer: a reason to stop, or a read that brings more. -/
theorem awaitHead_step {buf : Bytes} {scanned : Nat} {arrivals : List (Option Bytes)} {out : Bytes}
    (hs : scanned ≤ buf.length) (hn : NoneWithin buf scanned) (h : awaitHead errs due buf scanned arrivals = .stop out) :
    NoHead errs due buf arrivals out ∨ NoneWithin buf buf.length ∧ ∃ r rest, arrivals = some r :: rest ∧
      awaitHead errs due (buf ++ r) buf.length rest = .stop out := by
  have hnow : arrivals = ([] : List Bytes).map some ++ arrivals := rfl
  have hbuf : buf ++ ([] : List Bytes).flatten = buf := List.append_nil buf
  unfold awaitHead at h
  cases hf : find (buf.drop (scanned - 3)) crlfcrlf with
  | some pos =>
    have hat := resumed_some hs hn hf
    have hlen : crlfcrlf.length = 4 := rfl
    rw [hf] at h
    simp only at h
    split at h
    · cases h
      refine .inl (.oversized [] arrivals hnow ?_ fun p hp => ?_)
      · have := hat.add_le
        rw [hbuf]
        omega
      · rw [hbuf] at hp
        have := mt (hat.first p) (not_not_intro hp)
        omega
    · cases h
  | none =>
    have hnone := resumed_none hn hf
    rw [hf] at h
    simp only at h
    split at h
    · -- a full buffer without a terminator
      rename_i hfull
      cases h
      refine .inl (.oversized [] arrivals hnow (by rw [hbuf]; exact hfull) fun p hp => ?_)
      rw [hbuf] at hp
      have := mt (hnone p) (not_not_intro hp)
      omega
    split at h
    · rename_i hdue
      cases h
      exact .inl (.late [] arrivals hnow (by rw [hbuf]; exact hnone) hdue)
    · split at h
      · exact .inr ⟨hnone, _, _, rfl, h⟩
      · rename_i hend
        cases h
        refine .inl (.ended [] arrivals hnow (by rw [hbuf]; exact hnone) ?_)
        rcases arrivals with _ | ⟨_ | _ | ⟨b, bs⟩, rest⟩
        · exact .inl rfl
        · exact .inr (.inl rfl)
        · exact .inr (.inr rfl)
        · exact absurd rfl (hend b bs rest)

/-- Waiting stops for one of these reasons. -/
theorem awaitHead_stop {arrivals : List (Option Bytes)} {buf : Bytes} {scanned : Nat} {out : Bytes}
    (hs : scanned ≤ buf.length) (hn : NoneWithin buf scanned) (h : awaitHead errs due buf scanned arrivals = .stop out) :
    NoHead errs due buf arrivals out := by
  induction arrivals generalizing buf scanned with
  | nil =>
    rcases awaitHead_step hs hn h with h | ⟨-, r, rest, harr, -⟩
    · exact h
    · cases harr
  | cons a arrivals ih =>
    rcases awaitHead_step hs hn h with h | ⟨hnone, r, rest, harr, h⟩
    · exact h
    · cases harr
      exact (ih (by rw [List.length_append]; omega) (noneWithin_append hnone r) h).more

end

section

variable {fs : FileSys} {vhosts : Vhosts} {redirectHttps : Bool} {sni : Option Str} {dl : Deadlines}

/-- A request on a stream that has not failed: its reply is carried, and the stream has not failed where the
connection is kept. -/
theorem handleRequest_exec {head : Bytes} {wantKa : Bool} {w w' : Wire} {result : Option Bool}
    (hexec : (Written.handleRequest fs head vhosts wantKa redirectHttps sni).exec w = (result, w')) (hw : w.failed = false) :
    w'.sent = w.sent ++ w.since w' ∧ Exchange.Carries ⟨head, w.since w', w'.failed, result⟩
      (handleRequest fs head vhosts wantKa redirectHttps sni) ∧ (result = some true → w'.failed = false) := by
  obtain ⟨hsent, hwhole, hcut⟩ := (Written.replies_handleRequest fs redirectHttps head vhosts wantKa sni).since hexec hw
  refine ⟨hsent, ⟨hwhole, hcut⟩, fun hkeep => ?_⟩
  cases hfailed : w'.failed with
  | false => rfl
  | true =>
    rw [(hcut hfailed).2] at hkeep
    cases hkeep

/-- What has been sent is what was sent for each request, in order, and at the end. -/
theorem serveFrom_session (left reqs : Nat) (buf : Bytes) (arrivals : List (Option Bytes)) {w : Wire} (hw : w.failed = false) :
    (Written.serveFrom fs vhosts redirectHttps sni dl reqs left buf arrivals w).sent =
      w.sent ++ ((sessionFrom fs vhosts redirectHttps sni dl reqs left buf arrivals w).exchanges.flatMap Exchange.sent ++
        (sessionFrom fs vhosts redirectHttps sni dl reqs left buf arrivals w).closing.sent) := by
  induction left generalizing reqs buf arrivals w with
  | zero => exact (List.append_nil _).symm
  | succ left ih =>
    unfold Written.serveFrom sessionFrom
    split
    · exact (List.append_nil _).symm
    cases awaitHead vhosts.errors (dl.head reqs) buf 0 arrivals with
    | stop page => exact ((Written.gives_sendLast page).since rfl hw).1
    | head headEnd buf rest =>
      simp only
      cases hexec : (Written.handleRequest fs (buf.take headEnd) vhosts (decide (reqs + 1 < maxReqsPerConn)) redirectHttps
        sni).exec w with
      | mk result w' =>
        obtain ⟨hsent, -, hkeep⟩ := handleRequest_exec hexec hw
        rcases result with _ | _ | _
        · simp [hsent, Closing.sent]
        · simp [hsent, Closing.sent]
        · simp only [if_true, List.flatMap_cons]
          rw [ih (reqs + 1) _ rest (hkeep rfl), hsent, List.append_assoc, List.append_assoc]

/-- Each exchange carries the reply of `handleRequest` to its head, with its number. -/
theorem sessionFrom_replies (left reqs : Nat) (buf : Bytes) (arrivals : List (Option Bytes)) {w : Wire} (hw : w.failed = false)
    {i : Nat} {x : Exchange} (h : (sessionFrom fs vhosts redirectHttps sni dl reqs left buf arrivals w).exchanges[i]? = some x) :
    x.Carries (handleRequest fs x.head vhosts (decide (reqs + i + 1 < maxReqsPerConn)) redirectHttps sni) := by
  induction left generalizing reqs buf arrivals w i with
  | zero => cases h
  | succ left ih =>
    unfold sessionFrom at h
    split at h
    · cases h
    cases hwait : awaitHead vhosts.errors (dl.head reqs) buf 0 arrivals with
    | stop page =>
      rw [hwait] at h
      cases h
    | head headEnd buf rest =>
      rw [hwait] at h
      simp only at h
      cases hexec : (Written.handleRequest fs (buf.take headEnd) vhosts (decide (reqs + 1 < maxReqsPerConn)) redirectHttps
        sni).exec w with
      | mk result w' =>
        obtain ⟨-, hcarries, hkeep⟩ := handleRequest_exec hexec hw
        rw [hexec] at h
        simp only at h
        split at h <;> rcases i with _ | i
        · cases h
          exact hcarries
        · rename_i hres
          rw [show reqs + (i + 1) + 1 = reqs + 1 + i + 1 by omega]
          exact ih (reqs + 1) _ _ (hkeep hres) h
        · cases h
          exact hcarries
        · cases h

/-- What waiting for a head leaves of the stream. -/
theorem awaitHead_head {errs : ErrorPages} {due : Nat → Bool} {arrivals rest : List (Option Bytes)} {buf buf' : Bytes}
    {scanned headEnd : Nat} (h : awaitHead errs due buf scanned arrivals = .head headEnd buf' rest) :
    ∃ read : List Bytes, arrivals = read.map some ++ rest ∧ buf' = buf ++ read.flatten := by
  have hstep : ∀ {arrivals : List (Option Bytes)} {buf : Bytes} {scanned : Nat},
      awaitHead errs due buf scanned arrivals = .head headEnd buf' rest →
        rest = arrivals ∧ buf' = buf ∨ ∃ r more, arrivals = some r :: more ∧
          awaitHead errs due (buf ++ r) buf.length more = .head headEnd buf' rest := by
    intro arrivals buf scanned h
    unfold awaitHead at h
    simp only at h
    repeat' split at h
    all_goals first
      | cases h; exact .inl ⟨rfl, rfl⟩
      | exact .inr ⟨_, _, rfl, h⟩
      | cases h
  induction arrivals generalizing buf scanned with
  | nil =>
    rcases hstep h with ⟨rfl, rfl⟩ | ⟨r, more, harr, -⟩
    · exact ⟨[], rfl, (List.append_nil _).symm⟩
    · cases harr
  | cons a arrivals ih =>
    rcases hstep h with ⟨rfl, rfl⟩ | ⟨r, more, harr, h⟩
    · exact ⟨[], rfl, (List.append_nil _).symm⟩
    · cases harr
      obtain ⟨read, rfl, rfl⟩ := ih h
      exact ⟨r :: read, rfl, by rw [List.flatten_cons, List.append_assoc]⟩

/-- The heads answered, and what is buffered when no other comes, are the stream up to there. -/
theorem sessionFrom_stream (left reqs : Nat) (buf : Bytes) (arrivals : List (Option Bytes)) (w : Wire) {buf' sent : Bytes}
    {arrivals' : List (Option Bytes)} {failed : Bool}
    (h : (sessionFrom fs vhosts redirectHttps sni dl reqs left buf arrivals w).closing = .noHead buf' arrivals' sent failed) :
    ∃ read : List Bytes, arrivals = read.map some ++ arrivals' ∧ buf ++ read.flatten =
      (sessionFrom fs vhosts redirectHttps sni dl reqs left buf arrivals w).exchanges.flatMap Exchange.head ++ buf' := by
  induction left generalizing reqs buf arrivals w with
  | zero => cases h
  | succ left ih =>
    unfold sessionFrom at h ⊢
    split at h
    · cases h
    rename_i hconn
    rw [if_neg hconn]
    cases hwait : awaitHead vhosts.errors (dl.head reqs) buf 0 arrivals with
    | stop page =>
      rw [hwait] at h
      cases h
      exact ⟨[], rfl, by simp⟩
    | head headEnd buf1 rest =>
      rw [hwait] at h
      simp only at h ⊢
      obtain ⟨read, rfl, rfl⟩ := awaitHead_head hwait
      split at h
      · rename_i hres
        obtain ⟨read', rfl, hstream⟩ := ih (reqs + 1) _ rest _ h
        rw [if_pos hres]
        refine ⟨read ++ read', by rw [List.map_append, List.append_assoc], ?_⟩
        rw [List.flatMap_cons, List.append_assoc, ← hstream, ← List.append_assoc, List.take_append_drop,
          List.flatten_append, List.append_assoc]
      · cases h

/-- The loop goes on exactly as its replies say. -/
theorem goes_sessionFrom (hagrees : ∀ head wantKa, (handleRequest fs head vhosts wantKa redirectHttps sni).Agrees wantKa)
    (left reqs : Nat) (buf : Bytes) (arrivals : List (Option Bytes)) {w : Wire} (hw : w.failed = false)
    (hleft : reqs + left = maxReqsPerConn) (hpos : 0 < left) :
    Goes vhosts.errors dl reqs (sessionFrom fs vhosts redirectHttps sni dl reqs left buf arrivals w) := by
  induction left generalizing reqs buf arrivals w with
  | zero => omega
  | succ left ih =>
    unfold sessionFrom
    split
    · rename_i hexp
      exact .stop (.expired hexp)
    cases hwait : awaitHead vhosts.errors (dl.head reqs) buf 0 arrivals with
    | stop page =>
      have hnone : NoneWithin buf 0 := fun j hj => absurd hj (by have : crlfcrlf.length = 4 := rfl; omega)
      obtain ⟨-, hwhole, hcut⟩ := (Written.gives_sendLast page).since rfl hw
      exact .stop (.noHead (awaitHead_stop (Nat.zero_le _) hnone hwait) (fun h => (hwhole h).1) fun h => (hcut h).1)
    | head headEnd buf rest =>
      simp only
      cases hexec : (Written.handleRequest fs (buf.take headEnd) vhosts (decide (reqs + 1 < maxReqsPerConn)) redirectHttps
        sni).exec w with
      | mk result w' =>
        obtain ⟨-, hcarries, hkeep⟩ := handleRequest_exec hexec hw
        simp only
        split
        · rename_i hres
          -- the last request allowed does not keep the connection
          have hreply := (hcarries.whole (hkeep hres)).2.symm.trans hres
          have hn := of_decide_eq_true ((hagrees _ _).allowed hreply)
          exact .next hres hn (ih (reqs + 1) _ _ (hkeep hres) (by omega) (by omega))
        · rename_i hres
          exact .last hres

end

/-! ## What a client sees -/

section

variable {errs : ErrorPages} {dl : Deadlines} {n : Nat} {s : Session}

/-- A reply that does not keep the connection is the last, and nothing follows it. -/
theorem Goes.closes (h : Goes errs dl n s) {pre post : List Exchange} {x : Exchange} (hs : s.exchanges = pre ++ x :: post)
    (hx : x.result ≠ some true) : post = [] ∧ s.closing = .returned := by
  induction h generalizing pre with
  | stop _ => simp at hs
  | @last n y hy =>
    rcases pre with _ | ⟨z, pre⟩
    · cases hs
      exact ⟨rfl, rfl⟩
    · simp at hs
  | @next n y s hy hn hgoes ih =>
    rcases pre with _ | ⟨z, pre⟩
    · cases hs
      exact absurd hy hx
    · exact ih (List.cons.inj hs).2

/-- After a reply that keeps the connection comes another, or one of the reasons for none. -/
theorem Goes.keeps (h : Goes errs dl n s) {pre : List Exchange} {x : Exchange} (hs : s.exchanges = pre ++ [x])
    (hx : x.result = some true) : Stops errs dl (n + s.exchanges.length) s.closing := by
  induction h generalizing pre with
  | stop _ => simp at hs
  | @last n y hy =>
    rcases pre with _ | ⟨z, pre⟩
    · cases hs
      exact absurd hx hy
    · simp at hs
  | @next n y s hy hn hgoes ih =>
    rcases pre with _ | ⟨z, pre⟩
    · obtain ⟨rfl, hnil⟩ := List.cons.inj hs
      cases hgoes with
      | stop hstop => exact hstop
      | last _ => cases hnil
      | next _ _ _ => cases hnil
    · have := ih (List.cons.inj hs).2
      rwa [List.length_cons, show n + (s.exchanges.length + 1) = n + 1 + s.exchanges.length by omega]

/-- One response less than the requests left is followed by another at most. -/
theorem Goes.length_le (h : Goes errs dl n s) (hn : n < maxReqsPerConn) :
    n + s.exchanges.length ≤ maxReqsPerConn ∧ (s.closing.sent ≠ [] → n + s.exchanges.length < maxReqsPerConn) := by
  induction h with
  | @stop n closing _ => exact ⟨by simp only [List.length_nil]; omega, fun _ => by simpa using hn⟩
  | @last n y _ => exact ⟨by simp only [List.length_cons, List.length_nil]; omega, fun h => absurd rfl h⟩
  | @next n y s _ hn' _ ih =>
    obtain ⟨h1, h2⟩ := ih hn'
    simp only [List.length_cons]
    exact ⟨by omega, fun h => by have := h2 h; omega⟩

/-- What follows the last reply, when it was sent whole, says that the connection is closed. -/
theorem Goes.page {h : HeaderConfig} (hc : Clean h.csp) (hgoes : Goes (ErrorPages.new h.render) dl n s)
    (hwhole : s.closing.failed = false) (hsent : s.closing.sent ≠ []) :
    Response.valuesOf (str "connection") s.closing.sent = [str "close"] := by
  have hpage : ∀ page ∈ (ErrorPages.new h.render).pages, Response.valuesOf (str "connection") (sendError page false false) =
      [str "close"] := fun page hpage => errorPages_connection hc false false hpage
  induction hgoes with
  | stop hstop =>
    cases hstop with
    | expired _ => exact absurd rfl hsent
    | noHead hno hpart _ =>
      rw [Closing.sent, hpart hwhole] at hsent ⊢
      cases hno with
      | oversized => exact hpage _ (by simp [ErrorPages.pages])
      | late => exact hpage _ (by simp [ErrorPages.pages])
      | ended => exact absurd rfl hsent
  | last _ => exact absurd rfl hsent
  | next _ _ _ ih => exact ih hwhole hsent

theorem Goes.not_cap (h : Goes errs dl n s) : s.closing ≠ .cap := by
  induction h with
  | stop hstop => cases hstop <;> exact fun h => by cases h
  | last _ => exact fun h => by cases h
  | next _ _ _ ih => exact ih

end

/-- For every table of an accepted config and every stream, whatever becomes of the calls that write: what is sent is
what was sent for each request and at the end. For a request it is the reply, whole, or a part of it when an I/O error
cut it short, and then nothing is returned. A response that was not cut short says that the connection is kept exactly
when handling its request returned so; after one that says close, and after one cut short, nothing is sent; after one
that keeps the connection comes the next request, or the stream ended or failed, a deadline passed, or the head is too
long. There are 1000 responses at most, and the last one allowed does not keep the connection. -/
theorem session_persistence (c : Compressors) {text : Str} {cfg : Config} (hparse : parseConfig text = .ok cfg)
    {history : Nat → World} {seq start : Nat} {vhosts : Vhosts}
    (hbuild : ((buildVhosts c cfg seq : Look Unit _).run history start).value.1 = .ok vhosts) (fs : FileSys) (buf : Bytes)
    (redirectHttps : Bool) (sni : Option Str) (dl : Deadlines) (arrivals : List (Option Bytes)) (fates : List (Option Nat)) :
    let s := session fs vhosts buf redirectHttps sni dl arrivals fates
    Written.serveOver fs vhosts buf redirectHttps sni dl arrivals fates =
      s.exchanges.flatMap Exchange.sent ++ s.closing.sent ∧
    ((∀ n, some n ∉ fates) → Written.serveOver fs vhosts buf redirectHttps sni dl arrivals fates =
      serveOver fs vhosts buf redirectHttps sni dl arrivals) ∧
    (∀ i x, s.exchanges[i]? = some x →
      let r := handleRequest fs x.head vhosts (decide (i + 1 < maxReqsPerConn)) redirectHttps sni
      x.Carries r ∧ (x.result = none → x.failed = true ∨ r.result = none ∧ r.opened ≠ [])) ∧
    (∀ x ∈ s.exchanges, x.result ≠ none →
      (x.SaysKeepAlive ↔ x.result = some true) ∧ (x.SaysClose ↔ x.result = some false)) ∧
    (∀ pre x post, s.exchanges = pre ++ x :: post → x.SaysClose ∨ x.result = none → post = [] ∧ s.closing.sent = []) ∧
    (∀ pre x, s.exchanges = pre ++ [x] → x.SaysKeepAlive →
      x.result = none ∨ Stops vhosts.errors dl s.exchanges.length s.closing) ∧
    (∀ buf' arrivals' sent failed, s.closing = .noHead buf' arrivals' sent failed → ∃ read : List Bytes,
      arrivals = read.map some ++ arrivals' ∧ buf ++ read.flatten = s.exchanges.flatMap Exchange.head ++ buf') ∧
    (s.closing.failed = false → s.closing.sent ≠ [] → Response.valuesOf (str "connection") s.closing.sent = [str "close"]) ∧
    s.exchanges.length ≤ maxReqsPerConn ∧ (s.closing.sent ≠ [] → s.exchanges.length < maxReqsPerConn) ∧ s.closing ≠ .cap := by
  intro s
  have hfrom := (buildVhosts_from (E := Unit) seq start).2 vhosts hbuild
  have hclean := parseConfig_clean hparse
  have hagrees := hfrom.agrees hclean (parseConfig_oneLine hparse) fs
  have hcarries : ∀ i (x : Exchange), s.exchanges[i]? = some x →
      x.Carries (handleRequest fs x.head vhosts (decide (i + 1 < maxReqsPerConn)) redirectHttps sni) := by
    intro i x hx
    have := sessionFrom_replies _ _ _ _ rfl hx
    rwa [Nat.zero_add] at this
  have htold : ∀ x ∈ s.exchanges, x.result ≠ none →
      (x.SaysKeepAlive ↔ x.result = some true) ∧ (x.SaysClose ↔ x.result = some false) := by
    intro x hx hres
    obtain ⟨i, hi⟩ := List.mem_iff_getElem?.1 hx
    have hx := hcarries i x hi
    cases hfailed : x.failed with
    | true => exact absurd (hx.cut hfailed).2 hres
    | false =>
      obtain ⟨hsent, hresult⟩ := hx.whole hfailed
      have hreply := (hagrees x.head (decide (i + 1 < maxReqsPerConn)) redirectHttps sni).keepAlive (hresult ▸ hres)
      unfold Exchange.SaysKeepAlive Exchange.SaysClose
      rw [hsent, hresult]
      exact hreply
  have hgoes : Goes vhosts.errors dl 0 s :=
    goes_sessionFrom (fun head wantKa => hagrees head wantKa redirectHttps sni) _ 0 buf arrivals rfl (Nat.zero_add _) (by decide)
  have hmem : ∀ {pre post : List Exchange} {x : Exchange}, s.exchanges = pre ++ x :: post → x ∈ s.exchanges := by
    intro pre post x h
    rw [h]
    exact List.mem_append_right _ List.mem_cons_self
  have hlen := hgoes.length_le (by decide)
  rw [Nat.zero_add] at hlen
  refine ⟨serveFrom_session _ _ _ _ rfl, Written.serveOver_unbroken _ _ _ _ _ _ _, fun i x hx => ⟨hcarries i x hx, fun hres => ?_⟩,
    htold, fun pre x post hx hclose => ?_, fun pre x hx hkeep => ?_,
    fun buf' arrivals' sent failed hend => sessionFrom_stream _ _ _ _ _ hend, fun hwhole hsent => ?_, hlen.1, hlen.2, hgoes.not_cap⟩
  · cases hfailed : x.failed with
    | true => exact .inl rfl
    | false =>
      have hresult := ((hcarries i x hx).whole hfailed).2.symm.trans hres
      exact .inr ⟨hresult, (hagrees _ _ _ _).failed hresult⟩
  · have hno : x.result ≠ some true := by
      rcases hclose with hclose | hnone
      · by_cases hres : x.result = none
        · rw [hres]
          exact fun h => by cases h
        · rw [(htold x (hmem hx) hres).2.1 hclose]
          exact fun h => by cases h
      · rw [hnone]
        exact fun h => by cases h
    obtain ⟨hpost, hend⟩ := hgoes.closes hx hno
    exact ⟨hpost, by rw [hend]; rfl⟩
  · by_cases hres : x.result = none
    · exact .inl hres
    · have hstops := hgoes.keeps hx ((htold x (hmem hx) hres).1.1 hkeep)
      rw [Nat.zero_add] at hstops
      exact .inr hstops
  · rw [hfrom.errors] at hgoes
    exact hgoes.page hclean.csp hwhole hsent

/-- Two pipelined requests to a redirecting host; the stream breaks behind twenty bytes of the second response. -/
theorem session_persistence_pipelined :
    let stream := str "GET /old/a HTTP/1.1\r\nHost: a.example\r\n\r\nGET /old/b HTTP/1.1\r\nHost: a.example\r\n\r\n"
    let fs : FileSys := ⟨fun _ => none, fun _ => none, fun _ => none⟩
    ∃ cfg vhosts, parseConfig oneRule = .ok cfg ∧
      ((buildVhosts ⟨fun b _ => b, fun b _ => b⟩ cfg 0 : Look Unit _).run (fun _ => .empty) 0).value.1 = .ok vhosts ∧
      let s := session fs vhosts stream false none .never [] [none, none, some 20]
      s.exchanges.map (·.result) = [some true, none] ∧
      (∀ x ∈ s.exchanges, x.result ≠ none → (x.SaysKeepAlive ↔ x.result = some true)) ∧
      ∀ pre x post, s.exchanges = pre ++ x :: post → x.SaysClose ∨ x.result = none → post = [] ∧ s.closing.sent = [] := by
  intro stream fs
  have hchecks : (parseConfig oneRule).toOption.any (fun cfg =>
      ((buildVhosts ⟨fun b _ => b, fun b _ => b⟩ cfg 0 : Look Unit _).run (fun _ => .empty) 0).value.1.toOption.any
        fun vhosts => decide ((session fs vhosts stream false none .never [] [none, none, some 20]).exchanges.map (·.result) =
          [some true, none])) = true := by
    decide +kernel
  obtain ⟨cfg, vhosts, hcfg, hbuild, hresults⟩ := built_of_any hchecks
  have h := session_persistence _ hcfg hbuild fs stream false none .never [] [none, none, some 20]
  obtain ⟨-, -, -, htold, hcloses, -⟩ := h
  exact ⟨cfg, vhosts, hcfg, hbuild, of_decide_eq_true hresults, fun x hx hres => (htold x hx hres).1, hcloses⟩

/-- Responses that say that the connection is kept, and an error: reading the snapshot fails behind the header, and
the flush behind a 404 fails. -/
theorem session_persistence_cut :
    let read : FileSys := ⟨fun _ => some [none], fun _ => none, fun _ => none⟩
    let s := session read pageTable (str "GET /f HTTP/1.1\r\nHost: a.example\r\n\r\n") false none .never [] []
    let s' := session read pageTable (str "GET /g HTTP/1.1\r\nHost: a.example\r\n\r\n") false none .never [] [none, some 0]
    (∃ x ∈ s.exchanges, ¬ (x.SaysKeepAlive ↔ x.result = some true)) ∧
      ∃ x ∈ s'.exchanges, ¬ (x.SaysKeepAlive ↔ x.result = some true) := by
  intro read s s'
  have hcut : ∀ {s : Session}, s.exchanges.any (fun x => decide (x.SaysKeepAlive ∧ x.result = none)) = true →
      ∃ x ∈ s.exchanges, ¬ (x.SaysKeepAlive ↔ x.result = some true) := by
    intro s h
    obtain ⟨x, hx, htold⟩ := List.any_eq_true.1 h
    obtain ⟨hkeep, hnone⟩ := of_decide_eq_true htold
    refine ⟨x, hx, fun h => ?_⟩
    rw [h.1 hkeep] at hnone
    cases hnone
  exact ⟨hcut (by decide +kernel), hcut (by decide +kernel)⟩

end BareServer
