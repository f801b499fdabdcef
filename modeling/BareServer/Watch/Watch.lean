/-
The hot-reload watcher (`main.rs`, `watch`) and the boot that leads to it. One record holds the
watcher's variables and the live runtime; every assignment that others can see publishes it, with
the inputs that went live by it.
-/
import BareServer.Watch.Build

namespace BareServer

open BareServer.Lib

/-- `WATCH_INTERVAL_SECS` and `MAX_RELOAD_BACKOFF_SECS`, in nanoseconds. -/
def watchInterval : Nat := 2 * 10 ^ 9
def maxReloadBackoff : Nat := 60 * 10 ^ 9

/-! ## State -/

/-- A running accept loop: the generation counter that stops it, and the address of its socket. -/
structure AcceptLoop where
  gen : Nat
  addr : Str
  deriving DecidableEq

/-- The accept loops that run, and the number of the next generation counter. -/
structure Loops where
  running : List AcceptLoop
  next : Nat

/-- `spawn_accept`, under a generation counter of its own. -/
def Loops.spawn (l : Loops) (addr : Str) : Loops := ⟨⟨l.next, addr⟩ :: l.running, l.next + 1⟩

/-- `retire`: the loop of a generation counter stops, and its socket is released. -/
def Loops.retire (l : Loops) (gen : Nat) : Loops := { l with running := l.running.filter fun a => a.gen ≠ gen }

/-- The control of an accept loop: its address, its generation counter and the per-address connection
limit it enforces. -/
structure ListenerCtl where
  addr : Str
  gen : Nat
  maxPerIp : Nat
  label : Str

/-- The shared runtime with the configs its two halves were built from. The configs are there for
statements only: no step reads them. -/
structure Live where
  runtime : Runtime
  vhostsFrom : Loaded
  tlsFrom : Loaded

/-- The variables of `watch`, what `main` hands it, and the next snapshot number. -/
structure Watcher where
  configPath : Str
  tlsFiles : List Str
  cfgApplied : UInt64
  cfgLast : UInt64
  linksApplied : List (Str × Path)
  linksLast : Option (List (Str × Path))
  tlsApplied : UInt64
  tlsLast : UInt64
  treeApplied : Map Str UInt64
  treeLast : Map Str UInt64
  pending : Option (Str × Option Str)
  retryAt : Option Nat
  backoff : Nat
  failedAt : Option (UInt64 × UInt64)
  lastErr : Option Str
  treeFailed : Map Str UInt64
  maxConnsPerIp : Nat
  responseSecs : Nat
  https : ListenerCtl
  http : Option ListenerCtl
  loops : Loops
  buildSeq : Nat
  live : Live

/-- An input that goes live, with the signature its tick read: the text of a config, the certificates of
the files that a config names, or the tree of the site with one watcher key. For statements only. -/
inductive Install where
  | config (cfg : Loaded) (sig : UInt64)
  | certs (cfg : Loaded) (sig : UInt64)
  | tree (key : Str) (sig : UInt64)

/-- A state others can see, and what went live with it. -/
structure Publication where
  watcher : Watcher
  installs : List Install

/-- A program of the watcher. -/
abbrev Watch := Look Publication

/-- The key of one site's document tree: no host or root holds a NUL. -/
def siteKey (host root : Str) : Str := host ++ 0 :: root

/-- A map's pairs in the iteration order of the moment. -/
def iter {β : Type} (m : Map Str β) (o : HashOrder) : List (Str × β) :=
  (o.list m.keys).filterMap fun k => (m.lookup k).map fun v => (k, v)

/-- The rooted sites of a table, by host. -/
def rooted (sites : List (Str × Site)) : List (Str × Path) :=
  sites.filterMap fun hs => hs.2.root.map fun r => (hs.1, r)

/-- One entry for each distinct site with a root: the site, its root, and its smallest host. -/
def addTarget (targets : List (Site × Path × Str)) (host : Str) (site : Site) : List (Site × Path × Str) :=
  match site.root with
  | none => targets
  | some r =>
    if targets.any fun t => t.1.id == site.id then
      targets.map fun t => if t.1.id == site.id && decide (host < t.2.2) then (t.1, t.2.1, host) else t
    else targets ++ [(site, r, host)]

def scanTargets (sites : List (Str × Site)) : List (Site × Path × Str) :=
  sites.foldl (fun ts hs => addTarget ts hs.1 hs.2) []

/-! ## Reading the inputs -/

/-- What a tick reads before it decides: the signatures, the links, and whether a retry is due. -/
structure Readings where
  cfgNow : UInt64
  tlsNow : UInt64
  linksNow : Option (List (Str × Path))
  due : Bool

/-- After an edit or a renewal the failure is not the same: drop its backoff. -/
def resetBackoff (w : Watcher) (cfgNow tlsNow : UInt64) : Watcher :=
  match w.failedAt with
  | some s => if s ≠ (cfgNow, tlsNow) then { w with retryAt := none, backoff := watchInterval, failedAt := none } else w
  | none => w

def readInputs (w : Watcher) : Watch Readings := do
  let cfgNow ← fileSignatureOf w.configPath
  let tlsNow ← tlsSignatureOf w.tlsFiles
  let linksNow ← rootLinksOf w.configPath
  match (resetBackoff w cfgNow tlsNow).retryAt with
  | none => return { cfgNow, tlsNow, linksNow, due := true }
  | some t => return { cfgNow, tlsNow, linksNow, due := decide (t ≤ (← .view (·.now))) }

def linksChanged (w : Watcher) (r : Readings) : Bool :=
  (r.linksNow.map fun l => decide (l ≠ w.linksApplied)).getD false && decide (r.linksNow = w.linksLast)

def cfgChanged (w : Watcher) (r : Readings) : Bool :=
  (decide (r.cfgNow ≠ w.cfgApplied) && decide (r.cfgNow = w.cfgLast)) || linksChanged w r

def tlsChanged (w : Watcher) (r : Readings) : Bool :=
  decide (r.tlsNow ≠ w.tlsApplied) && decide (r.tlsNow = w.tlsLast)

/-! ## Reloading -/

/-- What an arm leaves: the watcher, the TLS signature to carry over, and a failure. -/
structure Armed where
  watcher : Watcher
  tlsNow : UInt64
  failure : Option Str

/-- A root's sampled signature, or else one read now. -/
def preTree (trees : Map Str UInt64) (root : Path) : Watch UInt64 :=
  match trees.lookup (display root) with
  | some s => pure s
  | none => treeSignatureOf root

/-- The tree signatures of a new table: the sampled one and a fresh one. -/
def seedTrees (trees : Map Str UInt64) : List (Str × Path) → Map Str UInt64 × Map Str UInt64 →
    Watch (Map Str UInt64 × Map Str UInt64)
  | [], maps => pure maps
  | (host, root) :: rest, (applied, last) => do
    let pre ← preTree trees root
    let fresh ← treeSignatureOf root
    seedTrees trees rest (applied.insert (siteKey host (display root)) pre, last.insert (siteKey host (display root)) fresh)

/-- The trees of a new table, under the keys the content scan uses. -/
def installedTrees (applied : Map Str UInt64) (targets : List (Site × Path × Str)) : List Install :=
  targets.map fun t => .tree (siteKey t.2.2 (display t.2.1)) ((applied.lookup (siteKey t.2.2 (display t.2.1))).getD 0)

/-- The addresses a config asks for. -/
def wantedAddrs (cfg : Config) : Str × Option Str :=
  (cfg.host ++ str ":" ++ cfg.port,
    if cfg.httpHost.isEmpty then none else some (cfg.httpHost ++ str ":" ++ cfg.httpPort))

/-- Both halves swapped, with the new settings taken over. -/
def Watcher.reloaded (w : Watcher) (cfg : Loaded) (s : Sampled) (rt : Runtime) (applied last : Map Str UInt64)
    (cfgNow : UInt64) (seq : Nat) : Watcher :=
  { w with
    buildSeq := seq
    live := ⟨rt, cfg, cfg⟩
    treeApplied := applied
    treeLast := last
    linksApplied := s.links
    maxConnsPerIp := cfg.cfg.maxConnsPerIp
    responseSecs := cfg.cfg.maxResponseSecs
    https := { w.https with maxPerIp := cfg.cfg.maxConnsPerIp }
    http := w.http.map fun h => { h with maxPerIp := cfg.cfg.maxConnsPerIp }
    cfgApplied := cfgNow
    tlsFiles := s.tlsFiles
    tlsApplied := s.tls
    pending := some (wantedAddrs cfg.cfg) }

/-- The full-reload arm: sample, build both halves, swap them, and take over the new settings. -/
def reload (c : Crates) (w : Watcher) (cfgNow tlsNow : UInt64) : Watch Armed := do
  match ← loadConfig w.configPath with
  | .error e => return ⟨w, tlsNow, some e⟩
  | .ok cfg =>
    let s ← sample w.configPath cfg.cfg
    match ← buildRuntime c cfg.cfg w.buildSeq with
    | (.error e, seq) => return ⟨{ w with buildSeq := seq }, tlsNow, some e⟩
    | (.ok rt, seq) =>
      let order ← .view (·.order)
      let (applied, last) ← seedTrees s.trees (rooted (iter rt.vhosts.sites order)) (∅, ∅)
      let w' := w.reloaded cfg s rt applied last cfgNow seq
      .publish ⟨w', .config cfg cfgNow :: .certs cfg s.tls ::
        installedTrees applied (scanTargets (iter rt.vhosts.sites order))⟩
      let tlsNow' ← tlsSignatureOf w'.tlsFiles
      return ⟨w', tlsNow', none⟩

/-- New certificates over the live table. -/
def Watcher.renewed (w : Watcher) (cfg : Loaded) (tls : ServerConfig) (tlsNow : UInt64) : Watcher :=
  { w with
    live := ⟨⟨w.live.runtime.vhosts, tls⟩, w.live.vhostsFrom, cfg⟩
    tlsApplied := tlsNow }

/-- The certificate-only arm. -/
def reloadTls (c : Crates) (w : Watcher) (tlsNow : UInt64) : Watch Armed := do
  match ← loadConfig w.configPath with
  | .error e => return ⟨w, tlsNow, some e⟩
  | .ok cfg =>
    match ← buildTls c.rustls cfg.cfg with
    | .error e => return ⟨w, tlsNow, some e⟩
    | .ok tls =>
      let w' := w.renewed cfg tls tlsNow
      .publish ⟨w', [.certs cfg tlsNow]⟩
      return ⟨w', tlsNow, none⟩

/-! ## Listeners -/

/-- Move a listener; the new socket is bound before the old one goes. -/
def rebind (loops : Loops) (ctl : ListenerCtl) (addr : Str) : Watch (Except Str (ListenerCtl × Loops)) :=
  if ctl.addr == addr then pure (.ok (ctl, loops))
  else do
    match ← .view fun w => w.bind addr with
    | .error e => return .error (str "cannot rebind " ++ ctl.label ++ str " to " ++ addr ++ str ": " ++ e ++
        str "; staying on " ++ ctl.addr)
    | .ok () => return .ok ({ ctl with addr, gen := loops.next }, (loops.retire ctl.gen).spawn addr)

def startListener (loops : Loops) (addr : Str) (maxPerIp : Nat) (label : Str) :
    Watch (Except Str (ListenerCtl × Loops)) := do
  match ← .view fun w => w.bind addr with
  | .error e => return .error (str "cannot bind " ++ label ++ str " on " ++ addr ++ str ": " ++ e)
  | .ok () => return .ok ({ addr, gen := loops.next, maxPerIp, label }, loops.spawn addr)

/-- The plain-HTTP listener, once HTTPS is settled. -/
def reconcileHttp (w : Watcher) (want : Option Str) : Watch (Except Str Watcher) :=
  match w.http, want with
  | some ctl, some addr => do
    match ← rebind w.loops ctl addr with
    | .error e => return .error e
    | .ok (ctl', loops) => return .ok { w with http := some ctl', loops }
  | some ctl, none => pure (.ok { w with http := none, loops := w.loops.retire ctl.gen })
  | none, some addr => do
    match ← startListener w.loops addr w.maxConnsPerIp (str "HTTP") with
    | .error e => return .error e
    | .ok (ctl, loops) => return .ok { w with http := some ctl, loops }
  | none, none => pure (.ok w)

/-- Bring the listeners to the pending addresses; a failure already recorded stays. -/
def reconcile (a : Armed) : Watch Armed :=
  match a.watcher.pending with
  | none => pure a
  | some (httpsAddr, want) => do
    match ← rebind a.watcher.loops a.watcher.https httpsAddr with
    | .error e => return { a with failure := a.failure.or (some e) }
    | .ok (ctl, loops) =>
      let w := { a.watcher with https := ctl, loops }
      match ← reconcileHttp w want with
      | .error e => return { a with watcher := w, failure := a.failure.or (some e) }
      | .ok w' => return { a with watcher := { w' with pending := none } }

/-- Record the outcome: clear the backoff, or keep the failure and double it. -/
def settle (cfgNow : UInt64) (a : Armed) : Watch Armed :=
  match a.failure with
  | none => pure { a with watcher := { a.watcher with retryAt := none, backoff := watchInterval, failedAt := none, lastErr := none } }
  | some e => do
    let now ← .view (·.now)
    return { a with watcher := { a.watcher with
      lastErr := some e
      failedAt := some (cfgNow, a.tlsNow)
      retryAt := some (now + a.watcher.backoff)
      backoff := min (a.watcher.backoff * 2) maxReloadBackoff } }

/-- The arm a due tick takes. -/
def takeArm (c : Crates) (w : Watcher) (r : Readings) : Watch Armed :=
  if cfgChanged w r then reload c w r.cfgNow r.tlsNow
  else if tlsChanged w r then reloadTls c w r.tlsNow
  else pure ⟨w, r.tlsNow, none⟩

/-- The first part of a tick, once its inputs are read. -/
def applyInputs (c : Crates) (w : Watcher) (r : Readings) : Watch Armed := do
  let w := resetBackoff w r.cfgNow r.tlsNow
  if r.due && (cfgChanged w r || tlsChanged w r || w.pending.isSome) then
    let armed ← takeArm c w r
    settle r.cfgNow (← reconcile armed)
  else pure ⟨w, r.tlsNow, none⟩

/-! ## Content -/

/-- Targets in the iteration order of the moment. -/
def orderTargets (o : HashOrder) (targets : List (Site × Path × Str)) : List (Site × Path × Str) :=
  (o.list (targets.map fun t => t.2.2)).filterMap fun host => targets.find? fun t => t.2.2 == host

/-- The live site of one identity. -/
def Sites.byId (sites : Sites) (id : Nat) : Option Site := sites.values.find? fun s => s.id == id

/-- Put a new cache into a site, for all its hosts. -/
def Sites.setCache (sites : Sites) (id : Nat) (cache : SiteCache) : Sites :=
  sites.mapVal fun s => if s.id == id then { s with cache } else s

/-- Bytes of the error pages and of every other target's live cache. -/
def charged (w : Watcher) (targets : List (Site × Path × Str)) (id : Nat) : Nat :=
  ((targets.filter fun t => t.1.id != id).map fun t =>
    (((w.live.runtime.vhosts.sites.byId t.1.id).map fun s => cacheBytes s.cache.map).getD 0)).sum +
  errorPageBytes w.live.runtime.vhosts

/-- A new cache in the live table. -/
def Live.setCache (l : Live) (id : Nat) (cache : SiteCache) : Live :=
  let vhosts := l.runtime.vhosts
  { l with runtime := { l.runtime with vhosts := { vhosts with sites := vhosts.sites.setCache id cache } } }

/-- A rebuilt cache installed, its signature recorded as applied. -/
def Watcher.rebuilt (w : Watcher) (id : Nat) (cache : SiteCache) (key : Str) (now : UInt64) (seq : Nat) : Watcher :=
  { w with
    live := w.live.setCache id cache
    buildSeq := seq
    treeApplied := w.treeApplied.insert key now
    treeFailed := w.treeFailed.erase key
    treeLast := w.treeLast.insert key now }

/-- One site of the content scan. -/
def scanSite (c : Crates) (sigs : Map Str UInt64) (targets : List (Site × Path × Str)) (w : Watcher)
    (t : Site × Path × Str) : Watch Watcher := do
  let (site, siteRoot, host) := t
  let root := display siteRoot
  let key := siteKey host root
  let now := (sigs.lookup root).getD 0
  let last := (w.treeLast.lookup key).getD now
  let applied := (w.treeApplied.lookup key).getD now
  if now ≠ applied && now = last then
    match ← .view fun v => buildCache ⟨c.compressors, v.mkdir, v.writes⟩ site.policy w.buildSeq (v.node siteRoot)
        (charged w targets site.id) with
    | (some (cache, _), seq) =>
      let w' := w.rebuilt site.id cache key now seq
      .publish ⟨w', [.tree key now]⟩
      return w'
    | (none, seq) => return { w with
        buildSeq := seq
        treeFailed := if w.treeFailed.lookup key = some now then w.treeFailed else w.treeFailed.insert key now
        treeLast := w.treeLast.insert key now }
  else return { w with treeLast := w.treeLast.insert key now }

/-- Each site's content. -/
def scan (c : Crates) (w : Watcher) : Watch Watcher := do
  let order ← .view (·.order)
  let targets := orderTargets order (scanTargets (iter w.live.runtime.vhosts.sites order))
  let sigs ← Obs.fold (fun sigs t => hashTree sigs t.2.1) ∅ targets
  Obs.fold (scanSite c sigs targets) w targets

/-! ## The loop -/

/-- One round of the watcher's loop, after its sleep. -/
def tick (c : Crates) (w : Watcher) : Watch Watcher := do
  let r ← readInputs w
  let a ← applyInputs c w r
  let w' := { a.watcher with cfgLast := r.cfgNow, tlsLast := a.tlsNow, linksLast := r.linksNow }
  .publish ⟨w', []⟩
  let w'' ← scan c w'
  .publish ⟨w'', []⟩
  return w''

/-! ## Boot -/

/-- The signatures `watch` starts from: the sampled ones of the live roots, and fresh ones. -/
def seedBoot (trees : Map Str UInt64) : List (Str × Path) → Map Str UInt64 → Map Str UInt64
  | [], applied => applied
  | (host, root) :: rest, applied =>
    match trees.lookup (display root) with
    | some s => seedBoot trees rest (applied.insert (siteKey host (display root)) s)
    | none => seedBoot trees rest applied

def freshTrees : Map Str UInt64 → Str × Path → Watch (Map Str UInt64) := fun last hr => do
  return last.insert (siteKey hr.1 (display hr.2)) (← treeSignatureOf hr.2)

/-- The opening of `watch`. -/
def watchInit (path : Str) (boot : Sampled) (rt : Runtime) (cfg : Loaded) (https : ListenerCtl)
    (http : Option ListenerCtl) (loops : Loops) (seq : Nat) : Watch Watcher := do
  let cfgLast ← fileSignatureOf path
  let linksLast ← rootLinksOf path
  let tlsLast ← tlsSignatureOf boot.tlsFiles
  let order ← .view (·.order)
  let roots := rooted (iter rt.vhosts.sites order)
  let treeLast ← Obs.fold freshTrees ∅ roots
  let w : Watcher :=
    { configPath := path, tlsFiles := boot.tlsFiles, cfgApplied := boot.config, cfgLast, linksApplied := boot.links,
      linksLast, tlsApplied := boot.tls, tlsLast, treeApplied := seedBoot boot.trees roots ∅, treeLast,
      pending := none, retryAt := none, backoff := watchInterval, failedAt := none, lastErr := none, treeFailed := ∅,
      maxConnsPerIp := cfg.cfg.maxConnsPerIp, responseSecs := cfg.cfg.maxResponseSecs, https, http, loops, buildSeq := seq,
      live := ⟨rt, cfg, cfg⟩ }
  .publish ⟨w, []⟩
  return w

/-- The plain-HTTP listener of a boot, when the config asks for one. -/
def startHttp (loops : Loops) (cfg : Config) : Watch (Except Str (Option ListenerCtl × Loops)) :=
  match (wantedAddrs cfg).2 with
  | none => pure (.ok (none, loops))
  | some addr => do
    match ← startListener loops addr cfg.maxConnsPerIp (str "HTTP") with
    | .error e => return .error e
    | .ok (ctl, loops) => return .ok (some ctl, loops)

/-- `main` up to the watcher's loop; an error is a fatal exit. -/
def boot (c : Crates) (path : Str) : Watch (Except Str Watcher) := do
  match ← loadConfig path with
  | .error e => return .error e
  | .ok cfg =>
    let dir := cfg.cfg.diskCache.getD []
    let writable ← .view fun w => cfg.cfg.storage != .disk || w.mkdir dir
    if !writable then return .error (str "disk_cache " ++ dir)
    else
      let s ← sample path cfg.cfg
      match ← buildRuntime c cfg.cfg 0 with
      | (.error e, _) => return .error e
      | (.ok rt, seq) =>
        match ← startListener ⟨[], 0⟩ (wantedAddrs cfg.cfg).1 cfg.cfg.maxConnsPerIp (str "HTTPS") with
        | .error e => return .error e
        | .ok (https, loops) =>
          match ← startHttp loops cfg.cfg with
          | .error e => return .error e
          | .ok (http, loops) => return .ok (← watchInit path s rt cfg https http loops seq)

/-- Boot and `n` rounds of the watcher. -/
def process (c : Crates) (path : Str) (n : Nat) : Watch (Option Watcher) := do
  match ← boot c path with
  | .error _ => return none
  | .ok w => return some (← Obs.repeatN (tick c) n w)

end BareServer
