/-
What one turn of a thread does to the limits, and what it leaves of what the thread held.
-/
import BareServer.Accept.Workers

namespace BareServer

open BareServer.Lib

variable {a : Outcomes} {ctx ctx' : AcceptCtx} {t : Thread} {ts : List Thread}

/-! ## What threads hold -/

/-- Does a thread hold a slot? -/
def Thread.slot : Thread → Bool
  | .loop _ .checking | .loop _ .acquiring | .loop _ (.dropping (.peer _)) => false
  | .loop _ _ | .worker _ => true

/-- The permit for an address that a thread holds. -/
def Thread.peerPermit : Thread → Option PeerPermit
  | .loop _ (.spawning p) | .loop _ (.dropping (.peer p)) | .loop _ (.dropping (.both p)) => some p
  | .loop _ _ => none
  | .worker p => p

/-- What a thread holds: slots, and counts of addresses. -/
def Thread.holding (t : Thread) : Nat × (IpAddr → Nat) :=
  (if t.slot then 1 else 0, (t.peerPermit.elim 0 PeerPermit.tally))

/-- Is a thread a worker, or an accept loop that has seen its generation current for a connection and may still spawn
one? -/
def Thread.upcoming : Thread → Nat
  | .worker _ | .loop _ (.accepted _) | .loop _ (.reserving ..) | .loop _ (.spawning _) => 1
  | .loop _ _ => 0

/-- No accept loop is current. -/
def AcceptCtx.Retired (ctx : AcceptCtx) : Prop := 0 ∉ ctx.gens

theorem AcceptCtx.Retired.isCurrent (h : ctx.Retired) (gen : Nat) : ctx.isCurrent gen = false := by
  rw [AcceptCtx.isCurrent, beq_eq_false_iff_ne]
  intro hgen
  exact h (List.mem_of_getElem? hgen)

/-! ## One turn -/

/-- What a turn leaves has no more workers, alive or to come, once no loop is current. -/
def Fades (ctx : AcceptCtx) (t : Thread) (ts : List Thread) : Prop :=
  ctx.Retired → (ts.map Thread.upcoming).sum ≤ t.upcoming

/-- A turn's access of the limits, with what its thread held before and what those that it leaves hold: none; a slot
asked for; an address reserved under a limit; a slot given back, or a permit for an address. -/
inductive Effect (ctx : AcceptCtx) (t : Thread) : Option (AcceptCtx × List Thread) → Prop where
  | pass {ts : List Thread} (hold : (ts.map Thread.holding).sum = t.holding) (hup : Fades ctx t ts) :
      Effect ctx t (some (ctx, ts))
  | acquire {f : Bool → List Thread} (ht : t.holding = 0)
      (hold : ∀ got, ((f got).map Thread.holding).sum = (if got then 1 else 0, 0)) (hup : ∀ got, Fades ctx t (f got)) :
      Effect ctx t (ctx.sem.acquireTimeout.map fun (got, sem) => ({ ctx with sem := sem }, f got))
  | reserve {f : Bool → List Thread} {ip : IpAddr} {max : Nat} (hmax : max ≠ 0) (ht : t.holding = (1, 0))
      (hold : ∀ got, ((f got).map Thread.holding).sum = (1, if got then Pi.single ip 1 else 0))
      (hup : ∀ got, Fades ctx t (f got)) :
      Effect ctx t (some ({ ctx with peer := (ctx.peer.reserve max ip).2 }, f (ctx.peer.reserve max ip).1))
  | release {ts : List Thread} (hold : t.holding = (1, 0) + (ts.map Thread.holding).sum) (hup : Fades ctx t ts) :
      Effect ctx t (some (ctx.release, ts))
  | releasePeer {ts : List Thread} {p : PeerPermit} (hold : t.holding = (0, p.tally) + (ts.map Thread.holding).sum)
      (hup : Fades ctx t ts) : Effect ctx t ((ctx.releasePeer p).map fun ctx => (ctx, ts))

/-- Every turn makes one access. -/
theorem Thread.turn_effect (a : Outcomes) (ctx : AcceptCtx) (t : Thread) : Effect ctx t (t.turn a ctx) := by
  cases t with
  | worker p =>
    cases p with
    | none => exact .release rfl fun _ => Nat.zero_le _
    | some p => exact .releasePeer (Prod.ext rfl (add_zero _).symm) fun _ => le_rfl
  | loop gen place =>
    cases place with
    | checking =>
      refine .pass ?_ fun _ => ?_
      · split <;> rfl
      · split <;> exact le_rfl
    | acquiring =>
      refine .acquire (f := fun got => [.loop gen (if got then .accepting else .checking)]) rfl (fun got => ?_) fun got _ => ?_
      · cases got <;> rfl
      · cases got <;> exact le_rfl
    | accepting =>
      simp only [turn, Acceptor.turn]
      split
      · -- a loop that is not current admits no connection
        rename_i hcurrent
        have hup : ∀ ts, Fades ctx (.loop gen .accepting) ts := fun ts hr => by
          rw [hr.isCurrent gen] at hcurrent
          cases hcurrent
        split
        · exact .pass rfl (hup _)
        · exact .pass rfl (hup _)
      · exact .pass rfl fun _ => le_rfl
    | accepted ip =>
      cases ip with
      | none => exact .pass rfl fun _ => Nat.zero_le _
      | some ip =>
        simp only [turn, Acceptor.turn]
        split
        · exact .pass rfl fun _ => le_rfl
        · exact .pass rfl fun _ => le_rfl
    | reserving ip max hmax =>
      refine .reserve (f := fun got => [.loop gen (if got then .spawning ⟨ip, true⟩ else .dropping .slot)]) hmax rfl
        (fun got => ?_) fun got _ => ?_
      · cases got <;> rfl
      · cases got
        · exact Nat.zero_le _
        · exact le_rfl
    | spawning p =>
      simp only [turn, Acceptor.turn]
      split
      · -- the worker takes over both permits
        exact .pass (Prod.ext rfl (zero_add _)) fun _ => le_rfl
      · exact .pass rfl fun _ => Nat.zero_le _
    | dropping rest =>
      cases rest with
      | slot => exact .release rfl fun _ => le_rfl
      | peer p => exact .releasePeer (Prod.ext rfl (add_zero _).symm) fun _ => le_rfl
      | both p =>
        simp only [turn, Acceptor.turn]
        split
        · exact .releasePeer (Prod.ext rfl (add_zero _).symm) fun _ => le_rfl
        · exact .release (Prod.ext rfl (zero_add _).symm) fun _ => le_rfl
    | returning => exact .release rfl fun _ => le_rfl

end BareServer
