/-
The books of admission: over any interleaving, slots and counts agree with the permits that are alive.
-/
import BareServer.Accept.Turns

namespace BareServer

open BareServer.Lib Relation

variable {a : Outcomes} {ctx ctx' : AcceptCtx} {t : Thread} {ts : List Thread} {l l' : Listener} {capacity : Nat}

/-! ## Books -/

namespace Listener

/-- The slots that are taken. -/
def permits (l : Listener) : Nat := l.threads.countP Thread.slot

/-- The live permits that an address was counted for. -/
def counted (l : Listener) (ip : IpAddr) : Nat := (l.threads.filterMap Thread.peerPermit).count ⟨ip, true⟩

end Listener

/-- The books are right for what is held: no slot is lost, and the counts are exact. -/
structure Balanced (capacity : Nat) (ctx : AcceptCtx) (held : Nat × (IpAddr → Nat)) : Prop where
  slots : ctx.sem.count + held.1 = capacity
  counts : Tallies ctx.peer.counts held.2

theorem tally_apply (p : PeerPermit) (ip : IpAddr) : p.tally ip = if p = ⟨ip, true⟩ then 1 else 0 := by
  obtain ⟨ip', counted⟩ := p
  cases counted with
  | false => simp [PeerPermit.tally]
  | true => simp [PeerPermit.tally, Pi.single_apply, eq_comm]

theorem Listener.held_holding (l : Listener) : l.held Thread.holding = (l.permits, l.counted) := by
  obtain ⟨ctx, ts⟩ := l
  unfold Pool.held permits counted
  induction ts with
  | nil => rfl
  | cons t ts ih =>
    simp only [List.map_cons, List.sum_cons, ih]
    refine Prod.ext ?_ (funext fun ip => ?_)
    · simp only [Thread.holding, Prod.fst_add, List.countP_cons, add_comm]
    · simp only [Thread.holding, Prod.snd_add, Pi.add_apply, List.filterMap_cons]
      cases t.peerPermit with
      | none => simp
      | some p => simp only [Option.elim_some, tally_apply, List.count_cons, beq_iff_eq, add_comm]

/-! ## One turn -/

section Turn

variable {others : Nat × (IpAddr → Nat)}

/-- An access without an underflow, and the books right after it, with what those that it leaves hold. -/
def Keeping (capacity : Nat) (others : Nat × (IpAddr → Nat)) (r : Option (AcceptCtx × List Thread)) : Prop :=
  ∃ ctx ts, r = some (ctx, ts) ∧ Balanced capacity ctx ((ts.map Thread.holding).sum + others)

theorem Balanced.release {held : Nat × (IpAddr → Nat)} (h : Balanced capacity ctx ((1, 0) + held + others)) :
    Balanced capacity ctx.release (held + others) := by
  obtain ⟨hslots, hcounts⟩ := h
  have hheld : Tallies ctx.peer.counts (held + others).2 := by simpa using hcounts
  refine ⟨?_, hheld⟩
  simp only [Prod.fst_add] at hslots
  simp only [AcceptCtx.release, Permit.drop, Prod.fst_add]
  omega

theorem Balanced.releasePeer {p : PeerPermit} {held : Nat × (IpAddr → Nat)}
    (h : Balanced capacity ctx ((0, p.tally) + held + others)) :
    ∃ ctx', ctx.releasePeer p = some ctx' ∧ Balanced capacity ctx' (held + others) := by
  obtain ⟨hslots, hcounts⟩ := h
  rw [add_assoc] at hslots hcounts
  obtain ⟨counts, hdrop, hdown⟩ := PeerPermit.drop_spec hcounts
  refine ⟨{ ctx with peer := { ctx.peer with counts := counts } }, ?_, ?_, hdown⟩
  · rw [AcceptCtx.releasePeer, hdrop, Option.map_some]
  · simpa using hslots

/-- No access underflows, and every one keeps the books right whatever the other threads hold. -/
theorem Effect.keeping {r : Option (AcceptCtx × List Thread)} (he : Effect ctx t r)
    (h : Balanced capacity ctx (t.holding + others)) : Keeping capacity others r := by
  cases he with
  | pass hold _ => exact ⟨_, _, rfl, hold ▸ h⟩
  | acquire ht hold _ =>
    rw [ht] at h
    rcases ctx.sem.acquireTimeout_spec with ⟨-, hnone⟩ | ⟨c, hc, hsome⟩
    · rw [hnone]
      exact ⟨_, _, rfl, (hold false).symm ▸ h⟩
    · rw [hsome]
      refine ⟨_, _, rfl, ?_⟩
      rw [hold true]
      obtain ⟨hslots, hcounts⟩ := h
      refine ⟨?_, hcounts⟩
      simp only [Prod.fst_add, Prod.fst_zero, if_true] at hslots ⊢
      omega
  | @reserve f ip max hmax ht hold _ =>
    rw [ht] at h
    obtain ⟨hslots, hcounts⟩ := h
    refine ⟨_, _, rfl, ?_⟩
    rw [hold]
    have hn : Tallies ctx.peer.counts others.2 := by simpa using hcounts
    rcases PeerLimiter.reserve_spec hn hmax ip with ⟨-, hno, hkeep⟩ | ⟨-, hyes, hup⟩
    · rw [hno]
      exact ⟨hslots, by simpa using hkeep⟩
    · rw [hyes]
      exact ⟨hslots, hup⟩
  | release hold _ =>
    rw [hold] at h
    exact ⟨_, _, rfl, h.release⟩
  | releasePeer hold _ =>
    rw [hold] at h
    obtain ⟨ctx', hdrop, hb⟩ := h.releasePeer
    rw [hdrop]
    exact ⟨_, _, rfl, hb⟩

end Turn

/-! ## Runs -/

theorem Turns.balanced : Pool.Keeps Turns Thread.holding (Balanced capacity) := by
  intro ctx ts ctx' ts' h others hb
  cases h with
  | turn a h =>
    rw [List.map_singleton, List.sum_singleton] at hb
    obtain ⟨_, _, heq, hb'⟩ := (Thread.turn_effect a _ _).keeping hb
    cases h.symm.trans heq
    exact hb'

theorem Moves.balanced : Pool.Keeps Moves Thread.holding (Balanced capacity) := by
  intro ctx ts ctx' ts' h others hb
  cases h with
  | turn h => exact Turns.balanced h others hb
  | setMax max => exact ⟨hb.slots, hb.counts⟩
  | rebind =>
    -- the new loop holds nothing yet
    have hnew : (Thread.loop ctx.retire.gens.length .checking).holding = 0 := rfl
    rw [List.map_singleton, List.sum_singleton, hnew]
    exact ⟨hb.slots, hb.counts⟩

/-- The books of a listener with as many slots as it was started with. -/
def Listener.Balanced (capacity : Nat) (l : Listener) : Prop := BareServer.Balanced capacity l.shared (l.held Thread.holding)

theorem Listener.start_balanced (capacity max : Nat) : (Listener.start capacity max).Balanced capacity :=
  ⟨rfl, Tallies.empty⟩

namespace Server

/-- The listeners, with the slots that each was started with. -/
def listeners (s : Server) : List (Listener × Nat) :=
  (s.https, maxConns) :: (s.http.toList ++ s.past).map fun l => (l, maxConnsHttp)

/-- The books of all listeners are right. -/
def Balanced (s : Server) : Prop := ∀ lc ∈ s.listeners, lc.1.Balanced lc.2

theorem balanced_iff {s : Server} :
    s.Balanced ↔ s.https.Balanced maxConns ∧ (∀ l, s.http = some l → l.Balanced maxConnsHttp) ∧
      ∀ l ∈ s.past, l.Balanced maxConnsHttp := by
  simp only [Balanced, listeners, List.forall_mem_cons, List.forall_mem_map, List.forall_mem_append, Option.mem_toList]

theorem Booted.balanced {s : Server} (h : Booted s) : s.Balanced := by
  rw [balanced_iff]
  cases h with
  | https max =>
    exact ⟨Listener.start_balanced _ max, (fun l hl => by cases hl), (fun l hl => by cases hl)⟩
  | both max =>
    refine ⟨Listener.start_balanced _ max, fun l hl => ?_, (fun l hl => by cases hl)⟩
    cases hl
    exact Listener.start_balanced _ max

theorem Step.balanced {s s' : Server} (h : Step s s') (hs : s.Balanced) : s'.Balanced := by
  rw [balanced_iff] at hs ⊢
  obtain ⟨hhttps, hhttp, hpast⟩ := hs
  cases h with
  | https h => exact ⟨Moves.balanced.turn h hhttps, hhttp, hpast⟩
  | http hl h =>
    refine ⟨hhttps, fun l hl' => ?_, hpast⟩
    cases hl'
    exact Moves.balanced.turn h (hhttp _ hl)
  | past hl h =>
    refine ⟨hhttps, hhttp, ?_⟩
    rw [hl, List.forall_mem_append, List.forall_mem_cons] at hpast
    rw [List.forall_mem_append, List.forall_mem_cons]
    exact ⟨hpast.1, Turns.balanced.turn h hpast.2.1, hpast.2.2⟩
  | stopHttp hl =>
    refine ⟨hhttps, (fun l hl' => by cases hl'), ?_⟩
    rw [List.forall_mem_cons]
    exact ⟨⟨(hhttp _ hl).slots, (hhttp _ hl).counts⟩, hpast⟩
  | startHttp hl max =>
    refine ⟨hhttps, fun l hl' => ?_, hpast⟩
    cases hl'
    exact Listener.start_balanced _ max

theorem Reachable.balanced {s : Server} (h : Reachable s) : s.Balanced := by
  obtain ⟨s0, hboot, hrun⟩ := h
  induction hrun with
  | refl => exact hboot.balanced
  | tail _ hstep ih => exact hstep.balanced ih

end Server

/-- With its books right, a listener's threads underflow nothing. -/
theorem Listener.Balanced.turn {l : Listener} (h : l.Balanced capacity) (ht : t ∈ l.threads) (a : Outcomes) :
    ∃ r, t.turn a l.shared = some r := by
  obtain ⟨ctx, ts⟩ := l
  obtain ⟨before, after, rfl⟩ := List.append_of_mem ht
  have hb := h
  rw [Listener.Balanced, List.append_cons, Pool.held_split, List.map_singleton, List.sum_singleton] at hb
  obtain ⟨ctx', ts', heq, -⟩ := (t.turn_effect a ctx).keeping hb
  exact ⟨_, heq⟩

/-- In every state that any interleaving of steps leads to: the slots left and those taken are the ones a listener was
started with; the counts of its addresses are those of the live permits that were counted, with no entry for none; no
count underflows, whatever its threads do next; and under a limit that is not 0 an address gets a permit exactly while
fewer are counted, also when that limit was read before. -/
theorem Server.admission_balanced {s : Server} (h : s.Reachable) {l : Listener} {capacity : Nat}
    (hl : (l, capacity) ∈ s.listeners) :
    l.shared.sem.count + l.permits = capacity ∧
      (∀ ip, l.shared.peer.counts.lookup ip = if l.counted ip = 0 then none else some (l.counted ip)) ∧
      (∀ t ∈ l.threads, ∀ a, t.turn a l.shared ≠ none) ∧
      ∀ ip k, 0 < k → (((l.shared.peer.setMax k).tryAcquire ip).1.isSome ↔ l.counted ip < k) ∧
        ((l.shared.peer.reserve k ip).1 = true ↔ l.counted ip < k) := by
  have hb := h.balanced (l, capacity) hl
  have hheld := l.held_holding
  obtain ⟨hslots, hcounts⟩ := hb
  rw [hheld] at hslots hcounts
  refine ⟨hslots, hcounts, fun t ht a hnone => ?_, fun ip k hk => ?_⟩
  · obtain ⟨r, hr⟩ := (h.balanced (l, capacity) hl).turn ht a
    rw [hnone] at hr
    cases hr
  · have hset : Tallies (l.shared.peer.setMax k).counts l.counted := hcounts
    exact ⟨PeerLimiter.tryAcquire_iff hset hk.ne' ip, PeerLimiter.reserve_iff hcounts hk.ne' ip⟩

/-- A process that has admitted one connection, under a limit of 1. -/
def admitted : Server where
  https := ⟨⟨⟨1023⟩, ⟨1, (∅ : Map IpAddr Nat).insert (.v4 1) 1⟩, [], 0⟩, [.loop 0 .checking, .worker (some ⟨.v4 1, true⟩)]⟩
  http := none
  past := []

theorem admitted_balanced :
    admitted.Reachable ∧ (admitted.https, 1024) ∈ admitted.listeners ∧
      admitted.https.shared.sem.count + admitted.https.permits = 1024 ∧
      (∀ ip, admitted.https.shared.peer.counts.lookup ip =
        if admitted.https.counted ip = 0 then none else some (admitted.https.counted ip)) ∧
      (∀ t ∈ admitted.https.threads, ∀ a, t.turn a admitted.https.shared ≠ none) ∧
      ∀ ip k, 0 < k → (((admitted.https.shared.peer.setMax k).tryAcquire ip).1.isSome ↔ admitted.https.counted ip < k) ∧
        ((admitted.https.shared.peer.reserve k ip).1 = true ↔ admitted.https.counted ip < k) := by
  have hgrant : (PeerLimiter.new 1).tryAcquire (.v4 1) =
      (some ⟨.v4 1, true⟩, ⟨1, (∅ : Map IpAddr Nat).insert (.v4 1) 1⟩) := rfl
  have hreach : admitted.Reachable := ⟨_, .https 1, Server.Step.https_run (Listener.accepts hgrant [])⟩
  have hmem : (admitted.https, 1024) ∈ admitted.listeners := List.mem_cons_self
  exact ⟨hreach, hmem, Server.admission_balanced hreach hmem⟩

end BareServer
