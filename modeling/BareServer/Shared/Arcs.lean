/-
What the threads of a process share (`main.rs`: `SharedRuntime`, `current`; `cache.rs`: `Site`, `SiteCache`): the live
host table and the caches in it, behind counted handles, and the snapshots on disk. `watch` builds caches file by file,
swaps tables, certificates and caches; workers pin a table for a connection and a cache for a request.
-/
import BareServer.Lib.Counted
import BareServer.Lib.Pool
import BareServer.Shared.Snapshots
import BareServer.Watch.Watch

namespace BareServer

open BareServer.Lib

/-! ## What handles lead to -/

/-- What an `Arc` keeps: a host table, or the cache of one site. A table's sites live as long as the table, and each
owns the cache that stands in it; an `Arc<Runtime>` is a handle to its table. -/
inductive Pointee where
  | table (v : Vhosts)
  | cache (c : SiteCache)

/-- A table owns caches, and a cache nothing. -/
def Pointee.rank : Pointee → Nat
  | .table _ => 1
  | .cache _ => 0

/-- The distinct sites of a table. The cache of the one at a place is the handle the table owns at that place. -/
def Vhosts.ids (v : Vhosts) : List Nat := (v.sites.values.map (·.id)).dedup

def Vhosts.slot (v : Vhosts) (id : Nat) : Nat := v.ids.idxOf id

/-- A table with the caches that stand in its sites. -/
def Vhosts.reading (v : Vhosts) (caches : Nat → SiteCache) : Vhosts :=
  { v with sites := v.sites.mapVal fun s => { s with cache := caches s.id } }

/-- The cache that a handle leads to. -/
def cacheAt (h : Heap Pointee) (i : Nat) : SiteCache :=
  match h[i]? with
  | some ⟨.cache c, _, _⟩ => c
  | _ => .empty

/-- The cache of one site, by the handles that its table owns. -/
def cacheIn (h : Heap Pointee) (v : Vhosts) (owns : List Nat) (id : Nat) : SiteCache :=
  owns[v.slot id]?.elim .empty (cacheAt h)

/-- The table that a handle leads to, as it reads now. -/
def tableAt (h : Heap Pointee) (t : Nat) : Option Vhosts :=
  match h[t]? with
  | some ⟨.table v, _, owns⟩ => some (v.reading (cacheIn h v owns))
  | _ => none

/-- Dropping a cache drops its `BuildDir`. -/
def Pointee.drop (sticks : Path → Bool) : Disk → Pointee → Disk
  | disk, .table _ => disk
  | disk, .cache c => c.buildDir.elim disk fun bd => bd.drop sticks disk

/-! ## State -/

/-- A published state of the runtime: a handle to its table, what the table read then, and its certificates. For
statements only. -/
structure Version where
  table : Nat
  vhosts : Vhosts
  tls : ServerConfig

/-- A disk build under way: its policy, its number, and the files written so far. -/
structure Build where
  policy : Policy
  number : Nat
  files : Files

def Build.dir (b : Build) : BuildDir := ⟨buildDirPath b.policy b.number, b.files⟩

/-- What is shared, with what only `watch` holds: the build under way, and the caches that it built and has not yet
put into a table. `log` holds every version published so far, for statements only. -/
structure Common where
  heap : Heap Pointee
  disk : Disk
  seq : Nat
  live : Option Nat
  tls : ServerConfig
  wip : Option Build
  built : List Nat
  log : List Version

/-- A connection: the table and the certificates it was accepted under. The versions it was accepted under and that
its requests have read are for statements only. -/
structure Conn where
  table : Nat
  tls : ServerConfig
  accepted : Nat
  reads : List Nat

/-- A worker between two requests, or with a request in flight for a host, which holds a cache of the table it saw. -/
inductive Worker where
  | idle (conn : Conn)
  | busy (conn : Conn) (cache : Nat) (seen : Vhosts) (host : Str)

/-- The connection of a worker. -/
def Worker.conn : Worker → Conn
  | .idle conn => conn
  | .busy conn _ _ _ => conn

namespace Common

/-- A process before its first runtime, over what is on disk. -/
def start (disk : Disk) : Common := ⟨[], disk, 0, none, ⟨∅⟩, none, [], []⟩

/-- The live runtime, entered in the log. -/
def publish (s : Common) : Common :=
  { s with log := s.log ++ (s.live.bind fun t => (tableAt s.heap t).map fun v => ⟨t, v, s.tls⟩).toList }

/-- What was freed drops its snapshot directories. -/
def free (sticks : Path → Bool) (r : Heap Pointee × List Pointee) (s : Common) : Common :=
  { s with heap := r.1, disk := r.2.foldl (Pointee.drop sticks) s.disk }

/-- A handle is given back. -/
def drop (sticks : Path → Bool) (s : Common) (i : Nat) : Common := s.free sticks (s.heap.drop 2 i)

def dropAll (sticks : Path → Bool) (s : Common) (is : List Nat) : Common := s.free sticks (s.heap.dropAll 2 is)

/-- A cache that was built, held by `watch`. -/
def hold (s : Common) (c : SiteCache) : Common :=
  { s with heap := s.heap.alloc (.cache c) [], built := s.built ++ [s.heap.length] }

/-- A runtime whose table owns some handles, swapped in. -/
def install (s : Common) (v : Vhosts) (owns : List Nat) (tls : ServerConfig) : Common :=
  { s with heap := s.heap.alloc (.table v) owns, live := some s.heap.length, tls, built := [] }

end Common

/-- A place in the log is the newest of its table. -/
def Newest (log : List Version) (t k : Nat) : Prop :=
  (∃ ver, log[k]? = some ver ∧ ver.table = t) ∧ ∀ j ver, k < j → log[j]? = some ver → ver.table ≠ t

/-! ## Steps -/

section

variable (dirs : Path → Prop) (sticks : Path → Bool)

/-- What `watch` does, one shared access at a time. `dirs` holds the `disk_cache` directories it is configured with. -/
inductive Watches : Common → Common → Prop where
  /-- A disk build takes its number and creates its directory. -/
  | create {s : Common} {p : Policy} (hd : dirs p.diskCache) (hw : s.wip = none) :
      Watches s { s with seq := s.seq + 1, wip := some ⟨p, s.seq, ∅⟩ }
  /-- The directory cannot be created. -/
  | refuse (s : Common) : Watches s { s with seq := s.seq + 1 }
  /-- `fs::write`, of a variant or of a part of it. -/
  | write {s : Common} {b : Build} {path : Path} (content : Bytes) (hw : s.wip = some b) (hin : Inside b.dir.path path) :
      Watches s { s with
        disk := Function.update s.disk path (some content), wip := some { b with files := b.files.insert path content } }
  /-- `build_cache` returns a cache whose recorded files it wrote. -/
  | finish {s : Common} {b : Build} {c : SiteCache} {env : BuildEnv} {root : Node} {total total' seq' : Nat}
      (hw : s.wip = some b) (hp : b.policy.storage = .disk) (hroot : Slashless root)
      (hc : buildCache env b.policy b.number root total = (some (c, total'), seq'))
      (hf : ∀ bd, c.buildDir = some bd → ∀ path content, bd.files.lookup path = some content →
        b.files.lookup path = some content) :
      Watches s { s.hold c with wip := none }
  /-- A cache in memory, or the empty one of a host that only redirects. -/
  | load {s : Common} {c : SiteCache} (hc : c = .empty ∨ ∃ env p seq root total total' seq', p.storage = .memory ∧
      buildCache env p seq root total = (some (c, total'), seq')) : Watches s (s.hold c)
  /-- The walk fails: the snapshot goes. -/
  | abort {s : Common} {b : Build} (hw : s.wip = some b) :
      Watches s { s with disk := b.dir.drop sticks s.disk, wip := none }
  /-- A build of the host table fails: the caches it had built go. -/
  | discard {s : Common} {is rest : List Nat} (hb : s.built.Perm (is ++ rest)) :
      Watches s ({ s with built := rest }.dropAll sticks is)
  /-- The first runtime. -/
  | boot {s : Common} {v : Vhosts} {owns : List Nat} (tls : ServerConfig) (hl : s.live = none) (hb : owns.Perm s.built)
      (hlen : owns.length = v.ids.length) (hv : v.reading (cacheIn s.heap v owns) = v) :
      Watches s (s.install v owns tls).publish
  /-- A reload: both halves are swapped, and the old runtime's handle goes. -/
  | reload {s : Common} {t : Nat} {v : Vhosts} {owns : List Nat} (tls : ServerConfig) (hl : s.live = some t)
      (hb : owns.Perm s.built) (hlen : owns.length = v.ids.length) (hv : v.reading (cacheIn s.heap v owns) = v) :
      Watches s ((s.install v owns tls).publish.drop sticks t)
  /-- New certificates over the live table. -/
  | renew {s : Common} {t : Nat} (tls : ServerConfig) (hl : s.live = some t) : Watches s { s with tls }.publish
  /-- `*site.cache.write() = Arc::new(new_cache)`, for a site of the live table. -/
  | swap {s : Common} {t j old slot : Nat} {c : Cell Pointee} (hl : s.live = some t) (hb : s.built = [j])
      (hc : s.heap[t]? = some c) (hold : c.owns[slot]? = some old) :
      Watches s ({ s with heap := s.heap.replace t slot j, built := [] }.publish.drop sticks old)

/-- What workers do. A worker starts where its accept loop clones the runtime; when no thread can be spawned for it,
it ends at once. The clone that the loop itself holds until its round is over is a worker without requests. -/
inductive Works : Common → List Worker → Common → List Worker → Prop where
  | accept {s : Common} {t : Nat} (hl : s.live = some t) :
      Works s [] { s with heap := s.heap.clone t } [.idle ⟨t, s.tls, s.log.length - 1, []⟩]
  /-- `handle_request` has found the site of a request, and clones the cache that stands in it. -/
  | request {s : Common} {conn : Conn} {c : Cell Pointee} {v seen : Vhosts} {host : Str} {site : Site} {i k : Nat}
      (hc : s.heap[conn.table]? = some c) (hv : c.value = .table v) (ht : tableAt s.heap conn.table = some seen)
      (hs : seen.sites.lookup host = some site) (hi : c.owns[v.slot site.id]? = some i) (hk : Newest s.log conn.table k) :
      Works s [.idle conn] { s with heap := s.heap.clone i }
        [.busy { conn with reads := conn.reads ++ [k] } i seen host]
  /-- The response is out: the cache is given back. -/
  | respond {s : Common} {conn : Conn} {i : Nat} {seen : Vhosts} {host : Str} :
      Works s [.busy conn i seen host] (s.drop sticks i) [.idle conn]
  | close {s : Common} {conn : Conn} : Works s [.idle conn] (s.drop sticks conn.table) []

/-- A step of a process: one of `watch`, or one of a worker. -/
inductive Acts : Common → List Worker → Common → List Worker → Prop where
  | watch {s s' : Common} (h : Watches dirs sticks s s') : Acts s [] s' []
  | work {s s' : Common} {ws ws' : List Worker} (h : Works sticks s ws s' ws') : Acts s ws s' ws'

end

/-- A process from its start on: its shared state, and its workers. -/
abbrev Process := Pool Common Worker

namespace Process

/-- The states that any interleaving leads to, from what was on disk after stale builds were cleared. -/
def Reachable (dirs : Path → Prop) (sticks : Path → Bool) (base : Disk) (p : Process) : Prop :=
  Relation.ReflTransGen (Pool.Turn (Acts dirs sticks)) ⟨.start base, []⟩ p

end Process

end BareServer
