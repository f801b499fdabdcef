/-
The two limits on connections (`main.rs`, `Semaphore` and `PeerLimiter`): slots for all connections of a listener,
and how many of them one source address may hold.
-/
import BareServer.Lib.Pool
import BareServer.Lib.Tally

namespace BareServer

open BareServer.Lib

/-- `std::net::IpAddr`. -/
inductive IpAddr where
  | v4 (addr : BitVec 32)
  | v6 (addr : BitVec 128)
  deriving DecidableEq

/-- `n -= 1` on a `usize`: nothing when it would go below zero. -/
def decrement : Nat → Option Nat
  | 0 => none
  | n + 1 => some n

/-! ## Slots -/

structure Semaphore where
  count : Nat

/-- A slot, or none once the wait is over; nothing at all when the count underflows. -/
def Semaphore.acquireTimeout (sem : Semaphore) : Option (Bool × Semaphore) :=
  -- a wait is given up only while there is no slot
  if sem.count = 0 then some (false, sem) else (decrement sem.count).map fun c => (true, ⟨c⟩)

def Permit.drop (sem : Semaphore) : Semaphore := ⟨sem.count + 1⟩

theorem Semaphore.acquireTimeout_spec (sem : Semaphore) :
    (sem.count = 0 ∧ sem.acquireTimeout = some (false, sem)) ∨
      ∃ c, sem.count = c + 1 ∧ sem.acquireTimeout = some (true, ⟨c⟩) := by
  unfold acquireTimeout
  rcases hc : sem.count with _ | c
  · exact .inl ⟨rfl, if_pos rfl⟩
  · exact .inr ⟨c, rfl, if_neg (Nat.succ_ne_zero c)⟩

/-! ## Slots of one address -/

structure PeerLimiter where
  max : Nat
  counts : Map IpAddr Nat

/-- A slot of one address. `counted` is what `try_acquire` did, and so what its drop undoes. -/
structure PeerPermit where
  ip : IpAddr
  counted : Bool
  deriving DecidableEq

namespace PeerLimiter

def new (max : Nat) : PeerLimiter := ⟨max, ∅⟩

def setMax (l : PeerLimiter) (max : Nat) : PeerLimiter := { l with max := max }

/-- What `try_acquire` does under the lock, with a limit that it has read before: is there a slot? -/
def reserve (l : PeerLimiter) (max : Nat) (ip : IpAddr) : Bool × PeerLimiter :=
  -- `entry(ip).or_insert(0)` leaves an entry, also when the slot is refused
  let n := (l.counts.lookup ip).getD 0
  if max ≤ n then (false, { l with counts := l.counts.insert ip n })
  else (true, { l with counts := l.counts.insert ip (n + 1) })

def tryAcquire (l : PeerLimiter) (ip : IpAddr) : Option PeerPermit × PeerLimiter :=
  if l.max = 0 then (some ⟨ip, false⟩, l)
  else if (l.reserve l.max ip).1 then (some ⟨ip, true⟩, (l.reserve l.max ip).2)
  else (none, (l.reserve l.max ip).2)

end PeerLimiter

/-- Give the slot back; nothing at all when the count underflows. -/
def PeerPermit.drop (p : PeerPermit) (l : PeerLimiter) : Option PeerLimiter :=
  if p.counted = false then some l
  else
    match l.counts.lookup p.ip with
    | none => some l
    | some n =>
      (decrement n).map fun n => { l with counts := if n = 0 then l.counts.erase p.ip else l.counts.insert p.ip n }

/-- What a permit adds to the counts. -/
def PeerPermit.tally (p : PeerPermit) : IpAddr → Nat := if p.counted then Pi.single p.ip 1 else 0

section Specs

variable {l : PeerLimiter} {n : IpAddr → Nat} {max : Nat}

/-- Under a limit that is not 0 a slot is there exactly when fewer are counted, and it is counted. -/
theorem PeerLimiter.reserve_spec (h : Tallies l.counts n) (hmax : max ≠ 0) (ip : IpAddr) :
    (max ≤ n ip ∧ (l.reserve max ip).1 = false ∧ Tallies (l.reserve max ip).2.counts n) ∨
      n ip < max ∧ (l.reserve max ip).1 = true ∧ Tallies (l.reserve max ip).2.counts (Pi.single ip 1 + n) := by
  unfold reserve
  rw [h.getD ip]
  rcases Nat.lt_or_ge (n ip) max with hlt | hge
  · right
    dsimp only
    rw [if_neg (Nat.not_le.2 hlt)]
    exact ⟨hlt, rfl, h.up ip⟩
  · left
    dsimp only
    rw [if_pos hge]
    exact ⟨hge, rfl, h.same (by omega)⟩

theorem PeerLimiter.reserve_iff (h : Tallies l.counts n) (hmax : max ≠ 0) (ip : IpAddr) :
    (l.reserve max ip).1 = true ↔ n ip < max := by
  rcases reserve_spec h hmax ip with ⟨hge, hno, -⟩ | ⟨hlt, hyes, -⟩
  · rw [hno]
    exact iff_of_false Bool.false_ne_true (Nat.not_lt.2 hge)
  · exact iff_of_true hyes hlt

/-- What `try_acquire` does to exact counts: it refuses, grants without counting under 0, or counts one more. -/
theorem PeerLimiter.tryAcquire_cases (h : Tallies l.counts n) (ip : IpAddr) :
    (l.max ≠ 0 ∧ l.max ≤ n ip ∧ ∃ l', l.tryAcquire ip = (none, l') ∧ Tallies l'.counts n) ∨
      (l.max = 0 ∧ l.tryAcquire ip = (some ⟨ip, false⟩, l)) ∨
      (l.max ≠ 0 ∧ n ip < l.max ∧
        ∃ l', l.tryAcquire ip = (some ⟨ip, true⟩, l') ∧ Tallies l'.counts (Pi.single ip 1 + n)) := by
  unfold tryAcquire
  by_cases hmax : l.max = 0
  · exact .inr (.inl ⟨hmax, if_pos hmax⟩)
  · rw [if_neg hmax]
    rcases reserve_spec h hmax ip with ⟨hge, hno, hkeep⟩ | ⟨hlt, hyes, hup⟩
    · left
      exact ⟨hmax, hge, _, by rw [hno, if_neg Bool.false_ne_true], hkeep⟩
    · right
      right
      exact ⟨hmax, hlt, _, by rw [hyes, if_pos rfl], hup⟩

/-- Under a limit that is not 0 a permit is granted exactly while fewer are counted. -/
theorem PeerLimiter.tryAcquire_iff (h : Tallies l.counts n) (hmax : l.max ≠ 0) (ip : IpAddr) :
    (l.tryAcquire ip).1.isSome ↔ n ip < l.max := by
  rcases tryAcquire_cases h ip with ⟨-, hge, l', heq, -⟩ | ⟨hzero, -⟩ | ⟨-, hlt, l', heq, -⟩
  · rw [heq]
    exact iff_of_false Bool.false_ne_true (Nat.not_lt.2 hge)
  · exact absurd hzero hmax
  · rw [heq]
    exact iff_of_true rfl hlt

/-- A permit that is among those counted is given back without an underflow. -/
theorem PeerPermit.drop_spec {p : PeerPermit} (h : Tallies l.counts (p.tally + n)) :
    ∃ counts, p.drop l = some { l with counts := counts } ∧ Tallies counts n := by
  obtain ⟨ip, counted⟩ := p
  unfold drop
  cases counted with
  | false =>
    refine ⟨l.counts, rfl, ?_⟩
    rw [tally, if_neg Bool.false_ne_true, zero_add] at h
    exact h
  | true =>
    rw [tally, if_pos rfl] at h
    refine ⟨_, ?_, h.down⟩
    simp only [Bool.true_eq_false, if_false, h.lookup_up]
    rfl

end Specs

end BareServer
