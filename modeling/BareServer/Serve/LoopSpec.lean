/-
The request loop against the plain split of the stream: however the bytes of a connection arrive,
what is written is what a loop over the whole byte sequence writes, cutting it after each first
CRLFCRLF.

The proof carries, over the reads, that no terminator lies within the bytes already scanned.
-/
import BareServer.Serve.Loop

namespace BareServer

open BareServer.Lib

/-! ## The terminator search -/

theorem windows_getElem? (n : Nat) (hay : Bytes) (i : Nat) (h : i + n ≤ hay.length) :
    (windows n hay)[i]? = some ((hay.drop i).take n) := by
  unfold windows
  rw [List.getElem?_map, List.getElem?_range (by omega)]
  rfl

/-- `find` is the first occurrence. -/
theorem find_eq {hay needle : Bytes} (hn : needle ≠ []) : find hay needle = indexOf? needle hay := by
  have hpos : 0 < needle.length := List.length_pos_of_ne_nil hn
  have hwin : ∀ i, i + needle.length ≤ hay.length → (((hay.drop i).take needle.length == needle) = true ↔
      needle <+: hay.drop i) := by
    intro i _
    rw [beq_iff_eq, List.prefix_iff_eq_take, eq_comm]
  unfold find
  split
  · rename_i h
    symm
    rw [indexOf?_none]
    intro j hj hp
    have := hp.length_le
    simp only [Bool.or_eq_true, List.isEmpty_iff, hn, decide_eq_true_eq, false_or] at h
    simp only [List.length_drop] at this
    omega
  · rename_i h
    simp only [Bool.or_eq_true, List.isEmpty_iff, hn, decide_eq_true_eq, false_or, Nat.not_lt] at h
    have hlen : (windows needle.length hay).length = hay.length + 1 - needle.length := by simp [windows]
    cases hf : (windows needle.length hay).findIdx? (· == needle) with
    | none =>
      symm
      rw [indexOf?_none]
      intro j hj hp
      have hle := hp.length_le
      simp only [List.length_drop] at hle
      have hin : j + needle.length ≤ hay.length := by omega
      rw [List.findIdx?_eq_none_iff] at hf
      have hmem : (hay.drop j).take needle.length ∈ windows needle.length hay :=
        List.mem_of_getElem? (windows_getElem? _ _ j hin)
      have := hf _ hmem
      rw [(hwin j hin).2 hp] at this
      cases this
    | some i =>
      symm
      rw [indexOf?_some]
      obtain ⟨hi, hocc, hmin⟩ := List.findIdx?_eq_some_iff_getElem.1 hf
      rw [hlen] at hi
      have hget : ∀ j (hj : j < (windows needle.length hay).length),
          (windows needle.length hay)[j] = (hay.drop j).take needle.length := by
        intro j hj
        have := windows_getElem? needle.length hay j (by rw [hlen] at hj; omega)
        rw [List.getElem?_eq_getElem hj] at this
        exact Option.some.inj this
      refine ⟨by omega, (hwin i (by omega)).1 (by rw [← hget]; exact hocc), fun j hj hp => ?_⟩
      have := hmin j hj
      rw [hget] at this
      exact absurd ((hwin j (by omega)).2 hp) this

/-- An occurrence that ends within `s` does not depend on what follows `s`. -/
theorem occurs_append {needle s t : Bytes} {j : Nat} (h : j + needle.length ≤ s.length) :
    needle <+: (s ++ t).drop j ↔ needle <+: s.drop j := by
  rw [List.drop_append_of_le_length (by omega)]
  constructor
  · intro hp
    exact List.prefix_of_prefix_length_le hp (List.prefix_append _ _) (by rw [List.length_drop]; omega)
  · intro hp
    exact hp.trans (List.prefix_append _ _)

theorem firstAt_append {needle s : Bytes} {i : Nat} (h : FirstAt needle s i) (t : Bytes) :
    FirstAt needle (s ++ t) i := by
  have hlen := h.add_le
  refine ⟨by rw [List.length_append]; omega, (occurs_append hlen).2 h.occurs, fun j hj hp => ?_⟩
  exact h.first j hj ((occurs_append (by omega)).1 hp)

/-! ## Waiting for one head -/

/-- No terminator ends within the first `n` bytes. -/
def NoneWithin (s : Bytes) (n : Nat) : Prop := ∀ j, j + crlfcrlf.length ≤ n → ¬ crlfcrlf <+: s.drop j

/-- The search from three bytes before the scanned part finds the first terminator of the buffer. -/
theorem resumed_some {buf : Bytes} {scanned pos : Nat} (hs : scanned ≤ buf.length) (hn : NoneWithin buf scanned)
    (h : find (buf.drop (scanned - 3)) crlfcrlf = some pos) : FirstAt crlfcrlf buf (scanned - 3 + pos) := by
  rw [find_eq (by decide), indexOf?_some] at h
  have hlen : crlfcrlf.length = 4 := rfl
  refine ⟨?_, ?_, fun j hj hp => ?_⟩
  · have := h.le; rw [List.length_drop] at this; omega
  · simpa [List.drop_drop] using h.occurs
  · by_cases hj3 : j < scanned - 3
    · exact hn j (by omega) hp
    · refine h.first (j - (scanned - 3)) (by omega) ?_
      rw [List.drop_drop, Nat.add_sub_cancel' (by omega)]
      exact hp

/-- When the resumed search fails, the buffer holds no terminator at all. -/
theorem resumed_none {buf : Bytes} {scanned : Nat} (hn : NoneWithin buf scanned)
    (h : find (buf.drop (scanned - 3)) crlfcrlf = none) : NoneWithin buf buf.length := by
  rw [find_eq (by decide), indexOf?_none] at h
  have hlen : crlfcrlf.length = 4 := rfl
  intro j hj hp
  by_cases hj3 : j < scanned - 3
  · exact hn j (by omega) hp
  · refine h (j - (scanned - 3)) (by rw [List.length_drop]; omega) ?_
    rw [List.drop_drop, Nat.add_sub_cancel' (by omega)]
    exact hp

theorem noneWithin_append {s : Bytes} (h : NoneWithin s s.length) (t : Bytes) : NoneWithin (s ++ t) s.length :=
  fun j hj hp => h j hj ((occurs_append hj).1 hp)

theorem indexOf?_of_noneWithin {s : Bytes} (h : NoneWithin s s.length) : indexOf? crlfcrlf s = none := by
  rw [indexOf?_none]
  intro j hj hp
  have := hp.length_le
  rw [List.length_drop] at this
  exact h j (by have : crlfcrlf.length = 4 := rfl; omega) hp

/-- What waiting for a head on the stream `s` comes to. -/
inductive WaitsTo (errs : ErrorPages) (s : Bytes) : Waited → Prop
  | head {p : Nat} {buf : Bytes} {l : List Bytes} : FirstAt crlfcrlf s p → p + 4 ≤ maxHeaderBytes →
      p + 4 ≤ buf.length → buf ++ l.flatten = s → (∀ r ∈ l, r ≠ []) →
      WaitsTo errs s (.head (p + 4) buf (l.map some))
  | oversized {p : Nat} : FirstAt crlfcrlf s p → maxHeaderBytes < p + 4 →
      WaitsTo errs s (.stop (sendError errs.headersTooLarge false false))
  | unterminated : indexOf? crlfcrlf s = none → maxHeaderBytes ≤ s.length →
      WaitsTo errs s (.stop (sendError errs.headersTooLarge false false))
  | tail : indexOf? crlfcrlf s = none → s.length < maxHeaderBytes → WaitsTo errs s (.stop [])

theorem awaitHead_waitsTo (errs : ErrorPages) : ∀ (reads : List Bytes) (buf : Bytes) (scanned : Nat),
    (∀ r ∈ reads, r ≠ []) → scanned ≤ buf.length → NoneWithin buf scanned →
    WaitsTo errs (buf ++ reads.flatten) (awaitHead errs (fun _ => false) buf scanned (reads.map some)) := by
  intro reads
  induction reads with
  | nil =>
    intro buf scanned _ hs hn
    unfold awaitHead
    simp only [List.flatten_nil, List.append_nil, List.map_nil]
    cases hf : find (buf.drop (scanned - 3)) crlfcrlf with
    | some pos =>
      have hat := resumed_some hs hn hf
      simp only
      split
      · exact .oversized hat (by omega)
      · exact .head (l := []) hat (by omega) hat.add_le (by simp) (by simp)
    | none =>
      have hnone := indexOf?_of_noneWithin (resumed_none hn hf)
      simp only [Bool.false_eq_true, if_false]
      split
      · exact .unterminated hnone (by omega)
      · exact .tail hnone (by omega)
  | cons r rest ih =>
    intro buf scanned hr hs hn
    unfold awaitHead
    simp only [List.map_cons]
    cases hf : find (buf.drop (scanned - 3)) crlfcrlf with
    | some pos =>
      have hat := resumed_some hs hn hf
      simp only
      split
      · exact .oversized (firstAt_append hat _) (by omega)
      · exact .head (l := r :: rest) (firstAt_append hat _) (by omega) hat.add_le rfl hr
    | none =>
      have hbuf := resumed_none hn hf
      simp only [Bool.false_eq_true, if_false]
      split
      · -- the buffer is full: a terminator further on ends past the limit
        rename_i hfull
        cases hi : indexOf? crlfcrlf (buf ++ (r :: rest).flatten) with
        | none => exact .unterminated hi (by rw [List.length_append]; omega)
        | some p =>
          have hat := indexOf?_some.1 hi
          refine .oversized hat ?_
          by_contra hle
          exact hbuf p (by have : crlfcrlf.length = 4 := rfl; omega)
            ((occurs_append (by have : crlfcrlf.length = 4 := rfl; omega)).1 hat.occurs)
      · -- another read, which brings at least one byte
        obtain ⟨b, bs, rfl⟩ := List.exists_cons_of_ne_nil (hr r List.mem_cons_self)
        have := ih (buf ++ b :: bs) buf.length (fun x hx => hr x (List.mem_cons_of_mem _ hx))
          (by rw [List.length_append]; omega) (noneWithin_append hbuf _)
        simpa using this

/-! ## The whole connection -/

/-- The reference loop on a whole byte sequence: cut it after its first CRLFCRLF, refuse a head over
the limit, pass each head to `handleRequest`, stop at the first response that is not keep-alive, at
the last request allowed, or at an unterminated tail. -/
def splitLoop (fs : FileSys) (vhosts : Vhosts) (redirectHttps : Bool) (sni : Option Str) (reqs : Nat) :
    Nat → Bytes → Bytes
  | 0, _ => []
  | left + 1, s =>
    match indexOf? crlfcrlf s with
    | none => if s.length ≥ maxHeaderBytes then sendError vhosts.errors.headersTooLarge false false else []
    | some p =>
      if p + 4 > maxHeaderBytes then sendError vhosts.errors.headersTooLarge false false
      else
        let reply := handleRequest fs (s.take (p + 4)) vhosts (decide (reqs + 1 < maxReqsPerConn)) redirectHttps sni
        reply.out ++
          if reply.result = some true then splitLoop fs vhosts redirectHttps sni (reqs + 1) left (s.drop (p + 4))
          else []

theorem serveFrom_eq (fs : FileSys) (vhosts : Vhosts) (redirectHttps : Bool) (sni : Option Str) :
    ∀ (left reqs : Nat) (buf : Bytes) (reads : List Bytes), (∀ r ∈ reads, r ≠ []) →
      serveFrom fs vhosts redirectHttps sni .never reqs left buf (reads.map some) =
        splitLoop fs vhosts redirectHttps sni reqs left (buf ++ reads.flatten) := by
  intro left
  induction left with
  | zero => intro _ _ _ _; rfl
  | succ left ih =>
    intro reqs buf reads hr
    have hw := awaitHead_waitsTo vhosts.errors reads buf 0 hr (Nat.zero_le _)
      (fun j hj => absurd hj (by have : crlfcrlf.length = 4 := rfl; omega))
    unfold serveFrom splitLoop
    simp only [Deadlines.never, Bool.false_eq_true, if_false]
    generalize awaitHead vhosts.errors (fun _ => false) buf 0 (reads.map some) = w at hw
    generalize buf ++ reads.flatten = s at hw
    cases hw with
    | @head p buf' rest hat hle hin hs hrest =>
      rw [indexOf?_some.2 hat]
      simp only [show ¬ p + 4 > maxHeaderBytes by omega, if_false]
      subst hs
      rw [List.take_append_of_le_length hin, List.drop_append_of_le_length hin, ← ih (reqs + 1) _ rest hrest]
      rfl
    | oversized hat hlt =>
      rw [indexOf?_some.2 hat]
      simp only [show _ + 4 > maxHeaderBytes from hlt, if_true]
    | unterminated hnone hge => rw [hnone]; simp only [show _ ≥ maxHeaderBytes from hge, if_true]
    | tail hnone hlt => rw [hnone]; simp only [ge_iff_le, Nat.not_le.2 hlt, if_false]

/-- Deadlines aside, what a connection is answered depends on its bytes alone: for every initial
buffer and every sequence of non-empty reads up to end of stream, the bytes written are those of the
reference loop over their concatenation. -/
theorem serveOver_eq_splitLoop (fs : FileSys) (vhosts : Vhosts) (redirectHttps : Bool) (sni : Option Str)
    (buf : Bytes) (reads : List Bytes) (hr : ∀ r ∈ reads, r ≠ []) :
    serveOver fs vhosts buf redirectHttps sni .never (reads.map some) =
      splitLoop fs vhosts redirectHttps sni 0 maxReqsPerConn (buf ++ reads.flatten) :=
  serveFrom_eq fs vhosts redirectHttps sni maxReqsPerConn 0 buf reads hr

/-- Two pipelined requests in three reads, the terminator of the first across two of them. -/
theorem serveOver_eq_splitLoop_pipelined :
    let fs : FileSys := ⟨fun _ => none, fun _ => none, fun _ => none⟩
    let vhosts : Vhosts := ⟨∅, str "443", str "80", ErrorPages.new []⟩
    let reads := [str "ET / HTTP/1.1\r\n\r", str "\nGET /a HTTP/1.1\r\n", str "\r\n"]
    (∀ r ∈ reads, r ≠ []) ∧
      serveOver fs vhosts (str "G") false none .never (reads.map some) =
        splitLoop fs vhosts false none 0 maxReqsPerConn (str "G" ++ reads.flatten) :=
  ⟨by decide +kernel, serveOver_eq_splitLoop _ _ _ _ _ _ (by decide +kernel)⟩

end BareServer
