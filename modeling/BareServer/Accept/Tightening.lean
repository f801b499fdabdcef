/-
The cap on one source address over the histories of its limiter, with the setting changed while connections are open.
-/
import BareServer.Accept.Limits

namespace BareServer

open BareServer.Lib Relation

/-! ## Histories -/

/-- A permit that is alive, and the setting it was granted under. -/
structure Grant where
  permit : PeerPermit
  under : Nat

/-- The calls on one limiter: `try_acquire`, refused or granted, the drop of a permit, and `set_max`. -/
inductive Call : PeerLimiter → List Grant → PeerLimiter → List Grant → Prop where
  | refused {l l' : PeerLimiter} {ip : IpAddr} (h : l.tryAcquire ip = (none, l')) : Call l [] l' []
  | granted {l l' : PeerLimiter} {ip : IpAddr} {p : PeerPermit} (h : l.tryAcquire ip = (some p, l')) :
      Call l [] l' [⟨p, l.max⟩]
  | drop {l l' : PeerLimiter} {g : Grant} (h : g.permit.drop l = some l') : Call l [g] l' []
  | setMax (l : PeerLimiter) (max : Nat) : Call l [] (l.setMax max) []

/-- A limiter and its live permits, after any calls. -/
def History (max : Nat) (p : Pool PeerLimiter Grant) : Prop := ReflTransGen (Pool.Turn Call) ⟨.new max, []⟩ p

/-- A permit is counted when the setting was not 0. -/
def Grant.Honest (g : Grant) : Prop := g.permit.counted = decide (g.under ≠ 0)

def Grant.tally (g : Grant) : IpAddr → Nat := g.permit.tally

/-! ## Counts and live permits -/

section

variable {l l' : PeerLimiter} {n : IpAddr → Nat} {ip : IpAddr} {p : PeerPermit}

theorem Call.keeps : Pool.Keeps Call Grant.tally fun l n => Tallies l.counts n := by
  intro l ts l' ts' h n hn
  cases h with
  | @refused _ ip h =>
    rcases PeerLimiter.tryAcquire_cases hn ip with ⟨-, -, l'', heq, hkeep⟩ | ⟨-, heq⟩ | ⟨-, -, l'', heq, -⟩
    · cases h.symm.trans heq
      exact hkeep
    · cases h.symm.trans heq
    · cases h.symm.trans heq
  | @granted _ ip p h =>
    rw [List.map_nil, List.sum_nil, zero_add] at hn
    rw [List.map_singleton, List.sum_singleton]
    rcases PeerLimiter.tryAcquire_cases hn ip with ⟨-, -, l'', heq, -⟩ | ⟨-, heq⟩ | ⟨-, -, l'', heq, hup⟩
    · cases h.symm.trans heq
    · cases h.symm.trans heq
      rw [Grant.tally, PeerPermit.tally, if_neg Bool.false_ne_true, zero_add]
      exact hn
    · cases h.symm.trans heq
      exact hup
  | drop h =>
    rw [List.map_singleton, List.sum_singleton] at hn
    rw [List.map_nil, List.sum_nil, zero_add]
    obtain ⟨counts, heq, hdown⟩ := PeerPermit.drop_spec hn
    cases h.symm.trans heq
    exact hdown
  | setMax max => exact hn

theorem tryAcquire_honest (h : l.tryAcquire ip = (some p, l')) : p.ip = ip ∧ Grant.Honest ⟨p, l.max⟩ := by
  unfold PeerLimiter.tryAcquire at h
  by_cases hmax : l.max = 0
  · rw [if_pos hmax] at h
    cases h
    exact ⟨rfl, by simp [Grant.Honest, hmax]⟩
  · rw [if_neg hmax] at h
    split at h
    · cases h
      exact ⟨rfl, by simp [Grant.Honest, hmax]⟩
    · cases h

theorem History.honest {max : Nat} {s : Pool PeerLimiter Grant} (h : History max s) : ∀ g ∈ s.threads, g.Honest := by
  refine Pool.forall_run (fun hcall hts => ?_) h fun g hg => by cases hg
  cases hcall with
  | refused h => exact hts
  | granted h => exact List.forall_mem_singleton.2 (tryAcquire_honest h).2
  | drop h => exact fun g hg => by cases hg
  | setMax => exact hts

/-- The counts hold the live permits that were counted. -/
theorem History.tallies {max : Nat} {s : Pool PeerLimiter Grant} (h : History max s) :
    Tallies s.shared.counts (s.held Grant.tally) :=
  Call.keeps.run h Tallies.empty

/-- What honest permits add to the counts is one for each that was granted under a setting other than 0. -/
theorem tally_honest {gs : List Grant} (h : ∀ g ∈ gs, g.Honest) (ip : IpAddr) :
    (gs.map Grant.tally).sum ip = gs.countP fun g => g.permit.ip = ip ∧ g.under ≠ 0 := by
  induction gs with
  | nil => rfl
  | cons g gs ih =>
    rw [List.forall_mem_cons] at h
    rw [List.map_cons, List.sum_cons, Pi.add_apply, ih h.2, List.countP_cons, add_comm, Grant.tally, PeerPermit.tally, h.1]
    congr 1
    by_cases hunder : g.under = 0
    · simp [hunder]
    · by_cases hip : g.permit.ip = ip
      · subst hip
        simp [hunder]
      · simp [hunder, hip]

end

/-- A permit granted under a setting other than 0 is within it, together with the live ones that were granted under any
setting other than 0. -/
theorem History.capped {max : Nat} {s : Pool PeerLimiter Grant} (h : History max s) {ip : IpAddr} {p : PeerPermit}
    {l' : PeerLimiter} (hgrant : s.shared.tryAcquire ip = (some p, l')) (hmax : 0 < s.shared.max) :
    (⟨p, s.shared.max⟩ :: s.threads).countP (fun g : Grant => g.permit.ip = ip ∧ g.under ≠ 0) ≤ s.shared.max := by
  obtain ⟨hip, -⟩ := tryAcquire_honest hgrant
  have hlive := tally_honest h.honest ip
  rcases PeerLimiter.tryAcquire_cases h.tallies ip with ⟨-, -, l'', heq, -⟩ | ⟨hzero, -⟩ | ⟨-, hlt, -⟩
  · rw [hgrant] at heq
    cases heq
  · omega
  · rw [Pool.held, hlive] at hlt
    rw [List.countP_cons_of_pos (by simpa using ⟨hip, hmax.ne'⟩)]
    omega

def peer : IpAddr := .v4 0x0a000001

/-- One permit alive under a cap of 2, and another one asked for. -/
theorem History.capped_second :
    History 2 ⟨⟨2, (∅ : Map IpAddr Nat).insert peer 1⟩, [⟨⟨peer, true⟩, 2⟩]⟩ ∧
      [(⟨⟨peer, true⟩, 2⟩ : Grant), ⟨⟨peer, true⟩, 2⟩].countP (fun g => g.permit.ip = peer ∧ g.under ≠ 0) ≤ 2 := by
  have hfirst : (PeerLimiter.new 2).tryAcquire peer = (some ⟨peer, true⟩, ⟨2, (∅ : Map IpAddr Nat).insert peer 1⟩) := rfl
  have hrun : History 2 ⟨⟨2, (∅ : Map IpAddr Nat).insert peer 1⟩, [⟨⟨peer, true⟩, 2⟩]⟩ :=
    .single (.mk [] [] (Call.granted hfirst))
  have hsecond : (PeerLimiter.mk 2 ((∅ : Map IpAddr Nat).insert peer 1)).tryAcquire peer =
      (some ⟨peer, true⟩, ⟨2, (∅ : Map IpAddr Nat).insert peer 2⟩) := rfl
  exact ⟨hrun, hrun.capped hsecond (by decide)⟩

/-- A permit granted under 0, and another one once the cap is 1: both are alive. -/
theorem History.capped_lifted :
    ¬ ∀ (max : Nat) (s : Pool PeerLimiter Grant), History max s → ∀ (ip : IpAddr) (p : PeerPermit) (l' : PeerLimiter),
      s.shared.tryAcquire ip = (some p, l') → 0 < s.shared.max →
        (⟨p, s.shared.max⟩ :: s.threads).countP (fun g : Grant => g.permit.ip = ip) ≤ s.shared.max := by
  intro hcap
  have hfirst : (PeerLimiter.new 0).tryAcquire peer = (some ⟨peer, false⟩, .new 0) := rfl
  have hopen : History 0 ⟨.new 0, [⟨⟨peer, false⟩, 0⟩]⟩ := .single (.mk [] [] (Call.granted hfirst))
  have hrun : History 0 ⟨.new 1, [⟨⟨peer, false⟩, 0⟩]⟩ := hopen.tail (.mk [⟨⟨peer, false⟩, 0⟩] [] (Call.setMax _ 1))
  have hle := hcap 0 _ hrun peer ⟨peer, true⟩ _ rfl (by decide)
  exact absurd hle (by decide)

end BareServer
