/-
Accept loops and their workers (`main.rs`, `spawn_accept`): the slots they take and give back, turn by turn, and the
listeners that `watch` starts, moves and stops.
-/
import BareServer.Accept.Limits

namespace BareServer

open BareServer.Lib Relation

def maxConns : Nat := 1024
def maxConnsHttp : Nat := 256

/-! ## Threads -/

/-- What the accept loops and workers of a listener share, also across its moves: the two limits, and the generation
counter of each accept loop. `gen` is that of the latest one. -/
structure AcceptCtx where
  sem : Semaphore
  peer : PeerLimiter
  older : List Nat
  gen : Nat

namespace AcceptCtx

def gens (ctx : AcceptCtx) : List Nat := ctx.older ++ [ctx.gen]

/-- Does a loop's counter still read the generation that it was started with? -/
def isCurrent (ctx : AcceptCtx) (loop : Nat) : Bool := ctx.gens[loop]? == some 0

def retire (ctx : AcceptCtx) : AcceptCtx := { ctx with gen := ctx.gen + 1 }

end AcceptCtx

/-- What is left to drop of what a thread that could not be spawned was to hold. -/
inductive Unspawned where
  | slot
  | peer (p : PeerPermit)
  | both (p : PeerPermit)

/-- Where an accept loop stands. -/
inductive Acceptor where
  | checking
  | acquiring
  | accepting
  | accepted (ip : Option IpAddr)
  | reserving (ip : IpAddr) (max : Nat) (h : max ≠ 0)
  | spawning (p : PeerPermit)
  | dropping (rest : Unspawned)
  | returning

/-- An accept loop, or a worker: it holds its permit for the address until its connection is over, and its slot
until it ends. -/
inductive Thread where
  | loop (gen : Nat) (place : Acceptor)
  | worker (p : Option PeerPermit)

/-- What the system answers: a connection, with the address of its peer if it can be read, or none; whether a thread
could be spawned; and in which order a closure that was not run drops what it holds. -/
structure Outcomes where
  accepted : Option (Option IpAddr)
  spawned : Bool
  peerFirst : Bool

/-- The slot goes back. -/
def AcceptCtx.release (ctx : AcceptCtx) : AcceptCtx := { ctx with sem := Permit.drop ctx.sem }

/-- The permit for an address goes back. -/
def AcceptCtx.releasePeer (ctx : AcceptCtx) (p : PeerPermit) : Option AcceptCtx :=
  (p.drop ctx.peer).map fun peer => { ctx with peer := peer }

/-- One turn of an accept loop, up to its next access of something shared; none when a count underflows. -/
def Acceptor.turn (a : Outcomes) (ctx : AcceptCtx) (gen : Nat) : Acceptor → Option (AcceptCtx × List Thread)
  | .checking => some (ctx, if ctx.isCurrent gen then [.loop gen .acquiring] else [])
  | .acquiring =>
    ctx.sem.acquireTimeout.map fun (got, sem) => ({ ctx with sem := sem }, [.loop gen (if got then .accepting else .checking)])
  | .accepting =>
    -- `accept` has returned; an error of either kind gives the slot back
    if ctx.isCurrent gen then
      match a.accepted with
      | none => some (ctx, [.loop gen (.dropping .slot)])
      | some ip => some (ctx, [.loop gen (.accepted ip)])
    else some (ctx, [.loop gen .returning])
  | .accepted none => some (ctx, [.loop gen (.dropping .slot)])
  | .accepted (some ip) =>
    if h : ctx.peer.max = 0 then some (ctx, [.loop gen (.spawning ⟨ip, false⟩)])
    else some (ctx, [.loop gen (.reserving ip ctx.peer.max h)])
  | .reserving ip max _ =>
    some ({ ctx with peer := (ctx.peer.reserve max ip).2 },
      [.loop gen (if (ctx.peer.reserve max ip).1 then .spawning ⟨ip, true⟩ else .dropping .slot)])
  | .spawning p =>
    if a.spawned then some (ctx, [.loop gen .checking, .worker (some p)])
    else some (ctx, [.loop gen (.dropping (.both p))])
  | .dropping .slot => some (ctx.release, [.loop gen .checking])
  | .dropping (.peer p) => (ctx.releasePeer p).map fun ctx => (ctx, [.loop gen .checking])
  | .dropping (.both p) =>
    if a.peerFirst then (ctx.releasePeer p).map fun ctx => (ctx, [.loop gen (.dropping .slot)])
    else some (ctx.release, [.loop gen (.dropping (.peer p))])
  | .returning => some (ctx.release, [])

/-- One turn of a thread. A worker's connection is over when it returns or panics, which drops the same. -/
def Thread.turn (a : Outcomes) (ctx : AcceptCtx) : Thread → Option (AcceptCtx × List Thread)
  | .loop gen place => place.turn a ctx gen
  | .worker (some p) => (ctx.releasePeer p).map fun ctx => (ctx, [.worker none])
  | .worker none => some (ctx.release, [])

/-! ## Listeners -/

/-- A listener, from its start on: all the accept loops that it has had, and their workers. -/
abbrev Listener := Pool AcceptCtx Thread

/-- The turns that the threads of a listener take by themselves. -/
inductive Turns : AcceptCtx → List Thread → AcceptCtx → List Thread → Prop where
  | turn {ctx ctx' : AcceptCtx} {t : Thread} {ts : List Thread} (a : Outcomes) (h : t.turn a ctx = some (ctx', ts)) :
      Turns ctx [t] ctx' ts

/-- What else `watch` does to a listener: `set_max`; and `rebind`, whose new loop takes its first turn when it will. -/
inductive Moves : AcceptCtx → List Thread → AcceptCtx → List Thread → Prop where
  | turn {ctx ctx' : AcceptCtx} {ts ts' : List Thread} (h : Turns ctx ts ctx' ts') : Moves ctx ts ctx' ts'
  | setMax (ctx : AcceptCtx) (max : Nat) : Moves ctx [] { ctx with peer := ctx.peer.setMax max } []
  | rebind (ctx : AcceptCtx) :
      Moves ctx [] { ctx with older := ctx.retire.gens, gen := 0 } [.loop ctx.retire.gens.length .checking]

namespace Listener

def start (maxConns maxConnsPerIp : Nat) : Listener :=
  ⟨⟨⟨maxConns⟩, .new maxConnsPerIp, [], 0⟩, [.loop 0 .checking]⟩

def retire (l : Listener) : Listener := ⟨l.shared.retire, l.threads⟩

/-- The first thread takes a turn. -/
theorem turn_first {a : Outcomes} {ctx ctx' : AcceptCtx} {t : Thread} {ts' : List Thread}
    (h : t.turn a ctx = some (ctx', ts')) (ts : List Thread) : Pool.Turn Moves ⟨ctx, t :: ts⟩ ⟨ctx', ts' ++ ts⟩ :=
  .mk [] ts (Moves.turn (Turns.turn a h))

/-- An accept loop takes `try_acquire` in two turns, or in one when there is no limit. -/
theorem admits {ctx : AcceptCtx} {ip : IpAddr} {p : PeerPermit} {peer : PeerLimiter}
    (h : ctx.peer.tryAcquire ip = (some p, peer)) (gen : Nat) (ts : List Thread) :
    ReflTransGen (Pool.Turn Moves) ⟨ctx, .loop gen (.accepted (some ip)) :: ts⟩
      ⟨{ ctx with peer := peer }, .loop gen (.spawning p) :: ts⟩ := by
  unfold PeerLimiter.tryAcquire at h
  by_cases hmax : ctx.peer.max = 0
  · rw [if_pos hmax] at h
    cases h
    have hgrant : (Thread.loop gen (.accepted (some ip))).turn ⟨none, true, true⟩ ctx =
        some (ctx, [.loop gen (.spawning ⟨ip, false⟩)]) := dif_pos hmax
    exact .single (turn_first hgrant ts)
  · rw [if_neg hmax] at h
    split at h
    · rename_i hyes
      cases h
      have hread : (Thread.loop gen (.accepted (some ip))).turn ⟨none, true, true⟩ ctx =
          some (ctx, [.loop gen (.reserving ip ctx.peer.max hmax)]) := dif_neg hmax
      have hgrant : (Thread.loop gen (.reserving ip ctx.peer.max hmax)).turn ⟨none, true, true⟩ ctx =
          some ({ ctx with peer := (ctx.peer.reserve ctx.peer.max ip).2 }, [.loop gen (.spawning ⟨ip, true⟩)]) := by
        simp only [Thread.turn, Acceptor.turn, hyes, if_true]
      exact (ReflTransGen.single (turn_first hread ts)).tail (turn_first hgrant ts)
    · cases h

/-- A current accept loop takes a slot, admits a connection and spawns its worker. -/
theorem accepts {c : Nat} {older : List Nat} {ip : IpAddr} {p : PeerPermit} {peer peer' : PeerLimiter}
    (h : peer.tryAcquire ip = (some p, peer')) (ts : List Thread) :
    ReflTransGen (Pool.Turn Moves) ⟨⟨⟨c + 1⟩, peer, older, 0⟩, .loop older.length .checking :: ts⟩
      ⟨⟨⟨c⟩, peer', older, 0⟩, .loop older.length .checking :: .worker (some p) :: ts⟩ := by
  have hcurrent : ∀ sem, AcceptCtx.isCurrent ⟨sem, peer, older, 0⟩ older.length = true := by
    simp [AcceptCtx.isCurrent, AcceptCtx.gens]
  have hcheck : (Thread.loop older.length .checking).turn ⟨none, true, true⟩ ⟨⟨c + 1⟩, peer, older, 0⟩ =
      some (⟨⟨c + 1⟩, peer, older, 0⟩, [.loop older.length .acquiring]) := by
    simp only [Thread.turn, Acceptor.turn, hcurrent, if_true]
  have hslot : (Thread.loop older.length .acquiring).turn ⟨none, true, true⟩ ⟨⟨c + 1⟩, peer, older, 0⟩ =
      some (⟨⟨c⟩, peer, older, 0⟩, [.loop older.length .accepting]) := rfl
  have haccept : (Thread.loop older.length .accepting).turn ⟨some (some ip), true, true⟩ ⟨⟨c⟩, peer, older, 0⟩ =
      some (⟨⟨c⟩, peer, older, 0⟩, [.loop older.length (.accepted (some ip))]) := by
    simp only [Thread.turn, Acceptor.turn, hcurrent, if_true]
  have hspawn : (Thread.loop older.length (.spawning p)).turn ⟨none, true, true⟩ ⟨⟨c⟩, peer', older, 0⟩ =
      some (⟨⟨c⟩, peer', older, 0⟩, [.loop older.length .checking, .worker (some p)]) := rfl
  have hhead := ((ReflTransGen.single (turn_first hcheck ts)).tail (turn_first hslot ts)).tail (turn_first haccept ts)
  exact (hhead.trans (admits h older.length ts)).tail (turn_first hspawn ts)

/-- A worker gives its permit for the address back, then its slot. -/
theorem ends {ctx : AcceptCtx} {p : PeerPermit} {peer : PeerLimiter} (h : p.drop ctx.peer = some peer)
    (before after : List Thread) : ReflTransGen (Pool.Turn Moves) ⟨ctx, before ++ [.worker (some p)] ++ after⟩
      ⟨{ ctx with sem := Permit.drop ctx.sem, peer := peer }, before ++ [] ++ after⟩ := by
  have hpeer : (Thread.worker (some p)).turn ⟨none, true, true⟩ ctx =
      some ({ ctx with peer := peer }, [.worker none]) := by
    rw [Thread.turn, AcceptCtx.releasePeer, h, Option.map_some, Option.map_some]
  have hslot : (Thread.worker none).turn ⟨none, true, true⟩ { ctx with peer := peer } =
      some ({ ctx with sem := Permit.drop ctx.sem, peer := peer }, []) := rfl
  exact (ReflTransGen.single (.mk before after (.turn (.turn _ hpeer)))).tail (.mk before after (.turn (.turn _ hslot)))

end Listener

/-- The listeners of a process: those under `watch`, and plain ones that it has stopped, whose threads may live on. -/
structure Server where
  https : Listener
  http : Option Listener
  past : List Listener

namespace Server

/-- A process as it starts, under a config with or without a plain listener. -/
inductive Booted : Server → Prop where
  | https (max : Nat) : Booted ⟨.start maxConns max, none, []⟩
  | both (max : Nat) : Booted ⟨.start maxConns max, some (.start maxConnsHttp max), []⟩

/-- One step: of a listener under `watch` or a stopped one, or of `watch`, which stops or starts the plain listener. -/
inductive Step : Server → Server → Prop where
  | https {s : Server} {l : Listener} (h : Pool.Turn Moves s.https l) : Step s { s with https := l }
  | http {s : Server} {l l' : Listener} (hl : s.http = some l) (h : Pool.Turn Moves l l') :
      Step s { s with http := some l' }
  | past {s : Server} {before after : List Listener} {l l' : Listener} (hl : s.past = before ++ l :: after)
      (h : Pool.Turn Turns l l') : Step s { s with past := before ++ l' :: after }
  | stopHttp {s : Server} {l : Listener} (hl : s.http = some l) :
      Step s { s with http := none, past := l.retire :: s.past }
  | startHttp {s : Server} (hl : s.http = none) (max : Nat) : Step s { s with http := some (.start maxConnsHttp max) }

/-- The states that any steps lead to. -/
def Reachable (s : Server) : Prop := ∃ s0, Booted s0 ∧ ReflTransGen Step s0 s

/-- The steps of a listener under `watch` are steps of the process. -/
theorem Step.https_run {s : Server} {l : Listener} (h : ReflTransGen (Pool.Turn Moves) s.https l) :
    ReflTransGen Step s { s with https := l } := by
  induction h with
  | refl => exact .refl
  | tail _ hturn ih => exact ih.tail (.https hturn)

theorem Step.http_run {s : Server} {l l' : Listener} (hl : s.http = some l) (h : ReflTransGen (Pool.Turn Moves) l l') :
    ReflTransGen Step s { s with http := some l' } := by
  induction h with
  | refl => exact hl ▸ .refl
  | tail _ hturn ih => exact ih.tail (.http rfl hturn)

end Server

end BareServer
