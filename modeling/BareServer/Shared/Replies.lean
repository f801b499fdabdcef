/-
What the shared state gives to those who use it: a response is that of one published version, whatever is built,
swapped and removed while it is on its way; a connection never goes back to an older version; and the snapshots on
disk are exactly those of the caches that are held.
-/
import BareServer.Shared.Interleaving
import BareServer.Serve.Session

namespace BareServer

open BareServer.Lib

variable {dirs : Path → Prop} {sticks : Path → Bool} {base : Disk} {p : Process}

/-! ## Reading a disk -/

/-- The machine with these files on disk. `reads` says how an open file is read, given what is in it. -/
def FileSys.over (fs : FileSys) (reads : Path → Bytes → List (Option Bytes)) (disk : Disk) : FileSys :=
  { fs with snapshot := fun path => (disk path).map (reads path) }

/-- What the build of one site recorded, as a disk. -/
def Vhosts.recorded (v : Vhosts) (host : Str) : Disk := fun path =>
  (v.sites.lookup host).bind fun site => site.cache.buildDir.bind fun bd => bd.files.lookup path

section

variable {fs fs' : FileSys}

theorem serveCached_sameReads {e : Cached} (hsnap : ∀ d, e = .disk d → ∀ v ∈ d.variants, fs'.snapshot v.path = fs.snapshot v.path)
    (acceptEnc inm : Str) (keepAlive isHead : Bool) (policy : Policy) :
    serveCached fs' e acceptEnc inm keepAlive isHead policy = serveCached fs e acceptEnc inm keepAlive isHead policy := by
  cases e with
  | mem m => rfl
  | disk d =>
    have hpick : pickVariant acceptEnc d.br d.gzip d.identity ∈ d.variants := by
      unfold DiskEntry.variants
      rcases pickVariant_cases acceptEnc d.br d.gzip d.identity with hv | hv | hv
      · rw [hv]
        exact List.mem_cons_self
      · exact List.mem_cons_of_mem _ (List.mem_append_right _ (Option.mem_toList.2 hv))
      · exact List.mem_cons_of_mem _ (List.mem_append_left _ (Option.mem_toList.2 hv))
    simp only [serveCached, serveDisk, hsnap d rfl _ hpick]

theorem serveAcmeToken_sameReads (hlink : fs'.isSymlink = fs.isSymlink) (htoken : fs'.token = fs.token) (root : Path)
    (decoded : Str) (keepAlive isHead : Bool) (policy : Policy) :
    serveAcmeToken fs' root decoded keepAlive isHead policy = serveAcmeToken fs root decoded keepAlive isHead policy := by
  simp only [serveAcmeToken, readTokenFile, hlink, htoken]

/-- A response reads the snapshot files of the addressed site's cache, and no others. -/
theorem handleRequest_sameReads (hlink : fs'.isSymlink = fs.isSymlink) (htoken : fs'.token = fs.token) {head : Bytes}
    {vhosts : Vhosts}
    (hsnap : ∀ req site url d, readRequest head = .ok req → vhosts.sites.lookup (normalizeHost req.fields.hostHdr) = some site →
      site.cache.map.lookup url = some (.disk d) → ∀ v ∈ d.variants, fs'.snapshot v.path = fs.snapshot v.path)
    (wantKa redirectHttps : Bool) (sni : Option Str) :
    handleRequest fs' head vhosts wantKa redirectHttps sni = handleRequest fs head vhosts wantKa redirectHttps sni := by
  unfold handleRequest
  cases hread : readRequest head with
  | error isHead => rfl
  | ok req =>
    simp only
    unfold handleAccepted
    cases hsite : vhosts.sites.lookup (normalizeHost req.fields.hostHdr) with
    | none => simp only [hsite]
    | some site =>
      -- only the content stage reads files
      have hcontent : ∀ decoded keepAlive,
          serveContent fs' site vhosts req (normalizeHost req.fields.hostHdr) (targetQuery req.target) decoded keepAlive
            redirectHttps =
          serveContent fs site vhosts req (normalizeHost req.fields.hostHdr) (targetQuery req.target) decoded keepAlive
            redirectHttps := by
        intro decoded keepAlive
        simp only [serveContent, serveAcmeToken_sameReads hlink htoken]
        cases hres : resolve site.cache.map decoded with
        | none => rfl
        | some r =>
          cases r with
          | dirIndex => rfl
          | entry e =>
            have he : ∀ d, e = .disk d → ∀ v ∈ d.variants, fs'.snapshot v.path = fs.snapshot v.path := by
              rintro d rfl
              obtain ⟨url, -, hurl⟩ := List.exists_of_findSome?_eq_some (resolve_entry hres)
              exact hsnap req site url d hread hsite hurl
            simp only [serveCached_sameReads he]
      simp only [hsite, handleSite, hcontent]

end

/-! ## Holders -/

theorem heldBy_pos {ws : Multiset Worker} {k : Nat} : 0 < heldBy ws k ↔ ∃ w ∈ ws, 0 < w.holds k := by
  induction ws using Multiset.induction with
  | empty => simp
  | cons w ws ih =>
    rw [← Multiset.singleton_add, heldBy_add, Nat.add_pos_iff_pos_or_pos, ih]
    simp

theorem Worker.holds_pos {w : Worker} {k : Nat} :
    0 < w.holds k ↔ w.conn.table = k ∨ ∃ conn seen host, w = .busy conn k seen host := by
  have hone : ∀ j, 0 < (if k = j then 1 else 0) ↔ j = k := by
    intro j
    split
    · rename_i heq
      exact ⟨fun _ => heq.symm, fun _ => Nat.one_pos⟩
    · rename_i hne
      exact ⟨fun h => absurd h (lt_irrefl 0), fun h => absurd h.symm hne⟩
  cases w with
  | idle conn =>
    rw [Worker.holds, hone]
    constructor
    · exact .inl
    · rintro (h | ⟨_, _, _, heq⟩)
      · exact h
      · cases heq
  | busy conn i seen host =>
    rw [Worker.holds, Nat.add_pos_iff_pos_or_pos, hone, hone]
    constructor
    · rintro (rfl | h)
      · exact .inr ⟨conn, seen, host, rfl⟩
      · exact .inl h
    · rintro (h | ⟨_, _, _, heq⟩)
      · exact .inr h
      · cases heq
        exact .inl rfl

/-! ## Responses -/

/-- What a request in flight reads of its cache's snapshot is what the build of the version that it saw recorded. -/
theorem Pinned.snapshot_seen {ws : Multiset Worker} {s : Common} {conn : Conn} {i : Nat} {seen : Vhosts} {host : Str}
    (hp : Pinned dirs sticks base 0 s ws) (hw : .busy conn i seen host ∈ ws) {site : Site}
    (hsite : seen.sites.lookup host = some site) {url : Str} {d : DiskEntry}
    (hd : site.cache.map.lookup url = some (.disk d)) {v : DiskVariant} (hv : v ∈ d.variants) :
    ∃ content, s.disk v.path = some content ∧ seen.recorded host v.path = some content := by
  obtain ⟨-, ⟨c, sc, hc, hval⟩, -, site', hsite', hcache⟩ := hp.workers _ hw
  cases hsite'.symm.trans hsite
  rw [cacheAt_of_get hc hval] at hcache
  subst hcache
  -- the request holds the cache, so it is live
  have hlive : 0 < c.strong := by
    have hheld : 0 < (0 : Nat → Nat) i + (heldBy ws i + s.mine i) := by
      obtain ⟨rest, rfl⟩ := Multiset.exists_cons_of_mem hw
      simp only [← Multiset.singleton_add, heldBy_add, Worker.holds, if_pos]
      omega
    have := hp.books.live hheld
    rwa [Heap.strong_of_get hc] at this
  obtain ⟨bd, hbd, hwhole⟩ := hp.whole i c _ hc hval url d hd
  obtain ⟨content, hcontent⟩ := Option.isSome_iff_exists.1 (hwhole v hv)
  refine ⟨content, hp.snapshots.intact (some i) bd ⟨c, _, hc, hlive, hval, hbd⟩ v.path content hcontent, ?_⟩
  simp only [Vhosts.recorded, hsite, Option.bind_some, hbd, hcontent]

/-- Over any interleaving of the watcher and the workers: a request in flight has seen one published version of the
table that its connection pinned, and the reply it gets from the disk as it is now is the reply of that version, from
the files its build recorded. -/
theorem request_pinned (hu : Unnested dirs) (hr : Process.Reachable dirs sticks base p) {conn : Conn} {i : Nat}
    {seen : Vhosts} {host : Str} (hw : .busy conn i seen host ∈ p.threads) :
    (∃ k ver, p.shared.log[k]? = some ver ∧ ver.table = conn.table ∧ ver.vhosts = seen ∧ conn.accepted ≤ k) ∧
    ∀ (fs : FileSys) reads head req wantKa redirectHttps sni, readRequest head = .ok req →
      normalizeHost req.fields.hostHdr = host → handleRequest (fs.over reads p.shared.disk) head seen wantKa redirectHttps sni =
        handleRequest (fs.over reads (seen.recorded host)) head seen wantKa redirectHttps sni := by
  have hp := hr.pinned hu
  refine ⟨?_, fun fs reads head req wantKa redirectHttps sni hread hhost => ?_⟩
  · obtain ⟨hconn, -, ⟨k, ver, hlast, hver, hseen⟩, -⟩ := hp.workers _ hw
    have hmem : k ∈ conn.reads := List.mem_of_getLast? hlast
    obtain ⟨ver', hver', ht⟩ := hconn.reads k hmem
    cases hver.symm.trans hver'
    exact ⟨k, ver, hver, ht, hseen, (List.pairwise_cons.1 hconn.forward).1 k hmem⟩
  · have hlink : (fs.over reads p.shared.disk).isSymlink = (fs.over reads (seen.recorded host)).isSymlink := rfl
    have htoken : (fs.over reads p.shared.disk).token = (fs.over reads (seen.recorded host)).token := rfl
    refine handleRequest_sameReads hlink htoken (fun req' site url d hread' hsite hd v hv => ?_) wantKa redirectHttps sni
    cases hread.symm.trans hread'
    rw [hhost] at hsite
    obtain ⟨content, hdisk, hrec⟩ := hp.snapshot_seen hw hsite hd hv
    simp only [FileSys.over, hdisk, hrec]

/-- A page that a request holds while its site was rebuilt without files. -/
def rebuilt (base : Disk) : Common where
  heap := [⟨.cache pageSite.cache, 1, []⟩, ⟨.table pageTable, 2, [2]⟩, ⟨.cache .empty, 1, []⟩]
  disk := Function.update base (str "/snap/build-0/identity/f") (some (str "abc"))
  seq := 1
  live := some 1
  tls := ⟨∅⟩
  wip := none
  built := []
  log := [⟨1, pageTable, ⟨∅⟩⟩, ⟨1, pageTable.reading fun _ => .empty, ⟨∅⟩⟩]

theorem rebuilt_reachable (base : Disk) : Process.Reachable (· = str "/snap") (fun _ => false) base
    ⟨rebuilt base, [.busy ⟨1, ⟨∅⟩, 0, [0]⟩ 0 pageTable (str "a.example")]⟩ := by
  obtain ⟨map, total, seq, hbuild⟩ : ∃ map total seq,
      buildCache ⟨⟨fun d _ => d, fun d _ => d⟩, fun _ => true, fun _ => true⟩ pagePolicy 0 pageTree 0 = (some
        (⟨map, some ⟨str "/snap/build-0", (∅ : Files).insert (str "/snap/build-0/identity/f") (str "abc")⟩⟩, total), seq) :=
    ⟨_, _, _, rfl⟩
  have hcache : pageSite.cache =
      ⟨map, some ⟨str "/snap/build-0", (∅ : Files).insert (str "/snap/build-0/identity/f") (str "abc")⟩⟩ := by
    simp only [pageSite, hbuild, Option.map_some, Option.getD_some]
  rw [← hcache] at hbuild
  have hslash : Slashless pageTree := by
    refine .dir (by decide) fun e he => .leaf fun entries h => ?_
    rw [List.mem_singleton.1 he] at h
    cases h
  have hidentity : IsComponent (str "identity") := by constructor <;> decide
  have hf : IsComponent (str "f") := by constructor <;> decide
  have hinside : Inside (buildDirPath pagePolicy 0) (str "/snap/build-0/identity/f") :=
    ⟨[str "identity", str "f"], by decide, by simpa using ⟨hidentity, hf⟩, rfl⟩
  have hstart : Process.Reachable (· = str "/snap") (fun _ => false) base ⟨.start base, []⟩ := .refl
  have hcreated := hstart.watch (.create (p := pagePolicy) rfl rfl)
  have hwritten := hcreated.watch (.write (str "abc") rfl hinside)
  have hbuilt := hwritten.watch (.finish (c := pageSite.cache) rfl rfl hslash hbuild fun bd hbd path content hl => by
    rw [hcache] at hbd
    cases hbd
    exact hl)
  -- the cache is 0, and its table 1
  have hlive := hbuilt.watch (.boot (v := pageTable) ⟨∅⟩ rfl (.refl _) rfl rfl)
  have haccepted := Process.Reachable.work (l := []) hlive (.accept rfl)
  have hread : tableAt [⟨.cache pageSite.cache, 1, []⟩, ⟨.table pageTable, 2, [0]⟩] 1 = some pageTable := rfl
  have hsite : pageTable.sites.lookup (str "a.example") = some pageSite := rfl
  have hfirst : Newest [⟨1, pageTable, ⟨∅⟩⟩] 1 0 := by
    refine ⟨⟨_, rfl, rfl⟩, fun j ver hj hver => ?_⟩
    have := (List.getElem?_eq_some_iff.1 hver).1
    simp at this
    omega
  have hrequested := Process.Reachable.work haccepted (.request (i := 0) rfl rfl hread hsite rfl hfirst)
  -- the empty cache is 2
  have hloaded := hrequested.watch (.load (.inl rfl))
  have hown : (⟨.table pageTable, 2, [0]⟩ : Cell Pointee).owns[0]? = some 0 := rfl
  have hswapped := hloaded.watch (.swap (t := 1) (j := 2) rfl rfl rfl hown)
  exact hswapped

/-- The page comes from the files of the version that the request saw, which is no longer the newest. -/
theorem request_pinned_rebuilt : tableAt (rebuilt fun _ => none).heap 1 ≠ some pageTable ∧
    (∃ k ver, (rebuilt fun _ => none).log[k]? = some ver ∧ ver.table = 1 ∧ ver.vhosts = pageTable ∧ 0 ≤ k) ∧
    handleRequest (FileSys.over ⟨fun _ => none, fun _ => none, fun _ => none⟩ (fun _ b => [some b]) (rebuilt fun _ => none).disk)
        (str "GET /f HTTP/1.1\r\nHost: a.example\r\n\r\n") pageTable true false none =
      handleRequest (FileSys.over ⟨fun _ => none, fun _ => none, fun _ => none⟩ (fun _ b => [some b])
        (pageTable.recorded (str "a.example"))) (str "GET /f HTTP/1.1\r\nHost: a.example\r\n\r\n") pageTable true false none := by
  have hread : (match readRequest (str "GET /f HTTP/1.1\r\nHost: a.example\r\n\r\n") with
      | .ok req => normalizeHost req.fields.hostHdr == str "a.example"
      | .error _ => false) = true := by
    decide +kernel
  have hpinned := request_pinned (unnested_single _) (rebuilt_reachable fun _ => none) (List.mem_singleton_self _)
  refine ⟨fun h => ?_, hpinned.1, ?_⟩
  · -- the table has no entry for the page any more
    have hgone : (tableAt (rebuilt fun _ => none).heap 1).all (fun v => v.sites.values.all fun s => s.cache.map.entries.isEmpty) := by
      decide +kernel
    rw [h] at hgone
    exact absurd hgone (by decide +kernel)
  · cases hreq : readRequest (str "GET /f HTTP/1.1\r\nHost: a.example\r\n\r\n") with
    | error e =>
      rw [hreq] at hread
      cases hread
    | ok req =>
      rw [hreq] at hread
      exact hpinned.2 _ _ _ req _ _ _ hreq (by simpa using hread)

/-! ## Versions -/

/-- Over any interleaving: a connection has the certificates of the version it was accepted under, its requests have
read versions of that version's table in the order in which they were published, the next one would read the newest of
them, and that is the newest of all while the table is live. -/
theorem connection_forward (hu : Unnested dirs) (hr : Process.Reachable dirs sticks base p) {w : Worker}
    (hw : w ∈ p.threads) :
    (∃ ver, p.shared.log[w.conn.accepted]? = some ver ∧ ver.table = w.conn.table ∧ ver.tls = w.conn.tls) ∧
    (∀ k ∈ w.conn.reads, ∃ ver, p.shared.log[k]? = some ver ∧ ver.table = w.conn.table) ∧
    (w.conn.accepted :: w.conn.reads).Pairwise (· ≤ ·) ∧
    ∃ k ver, Newest p.shared.log w.conn.table k ∧ p.shared.log[k]? = some ver ∧
      tableAt p.shared.heap w.conn.table = some ver.vhosts ∧ (∀ j ∈ w.conn.reads, j ≤ k) ∧
      (p.shared.live = some w.conn.table → k + 1 = p.shared.log.length) := by
  have hp := hr.pinned hu
  have hconn : w.conn.Right p.shared := by
    have hright := hp.workers w hw
    cases w with
    | idle conn => exact hright
    | busy conn i seen host => exact hright.1
  refine ⟨hconn.accepted, hconn.reads, hconn.forward, ?_⟩
  obtain ⟨c, v, hc, hv⟩ := hconn.table
  -- the connection holds its table
  have hlive : 0 < c.strong := by
    have hheld : 0 < (0 : Nat → Nat) w.conn.table + (heldBy p.threads w.conn.table + p.shared.mine w.conn.table) := by
      have : 0 < heldBy p.threads w.conn.table := heldBy_pos.2 ⟨w, hw, Worker.holds_pos.2 (.inl rfl)⟩
      omega
    have := hp.books.live hheld
    rwa [Heap.strong_of_get hc] at this
  obtain ⟨k, ver, hk, hver, hread⟩ := hp.newest w.conn.table c v hc hv hlive
  refine ⟨k, ver, hk, hver, hread, fun j hj => ?_, fun hl => ?_⟩
  · obtain ⟨ver', hver', ht⟩ := hconn.reads j hj
    exact hk.le hver' ht
  · obtain ⟨last, hlast, ht, -⟩ := hp.newest_live hl
    have := hk.le hlast ht
    have := (List.getElem?_eq_some_iff.1 hver).1
    omega

/-- A connection whose request has read the first of two versions: the next one would read the second. -/
theorem connection_forward_rebuilt :
    (∃ ver, (rebuilt fun _ => none).log[0]? = some ver ∧ ver.table = 1 ∧ ver.tls = ⟨∅⟩) ∧
    (∀ k ∈ [0], ∃ ver, (rebuilt fun _ => none).log[k]? = some ver ∧ ver.table = 1) ∧ [0, 0].Pairwise (· ≤ ·) ∧
    ∃ k ver, Newest (rebuilt fun _ => none).log 1 k ∧ (rebuilt fun _ => none).log[k]? = some ver ∧
      tableAt (rebuilt fun _ => none).heap 1 = some ver.vhosts ∧ (∀ j ∈ [0], j ≤ k) ∧
      ((rebuilt fun _ => none).live = some 1 → k + 1 = (rebuilt fun _ => none).log.length) :=
  connection_forward (unnested_single _) (rebuilt_reachable fun _ => none) (List.mem_singleton_self _)

/-! ## Snapshots -/

namespace Process

/-- A cache that is held: built and not in a table yet, in the hands of a request, or in a table that is live or
pinned by a connection. -/
def Holds (p : Process) (i : Nat) : Prop :=
  i ∈ p.shared.built ∨ (∃ conn seen host, .busy conn i seen host ∈ p.threads) ∨
    ∃ (t : Nat) (c : Cell Pointee), p.shared.heap[t]? = some c ∧ i ∈ c.owns ∧
      (p.shared.live = some t ∨ ∃ w ∈ p.threads, w.conn.table = t)

end Process

/-- A cache is live exactly while it is held. -/
theorem Pinned.live_cache (hp : Pinned dirs sticks base 0 p.shared p.threads) {i : Nat} (hi : IsCache p.shared.heap i) :
    0 < p.shared.heap.strong i ↔ p.Holds i := by
  obtain ⟨ci, sc, hci, hsc⟩ := hi
  -- what is held from outside the heap
  have hheld : ∀ k, 0 < (0 : Nat → Nat) k + (heldBy p.threads k + p.shared.mine k) ↔
      k ∈ p.shared.built ∨ p.shared.live = some k ∨ ∃ w ∈ p.threads, 0 < w.holds k := by
    intro k
    have hlive : 0 < p.shared.live.toList.count k ↔ p.shared.live = some k := by
      rw [List.count_pos_iff, Option.mem_toList]
    have hbuilt : 0 < p.shared.built.count k ↔ k ∈ p.shared.built := List.count_pos_iff
    have hthreads : 0 < heldBy p.threads k ↔ ∃ w ∈ p.threads, 0 < w.holds k := heldBy_pos
    rw [← hlive, ← hbuilt, ← hthreads]
    simp only [Pi.zero_apply, Common.mine]
    omega
  have hnotTable : ∀ t, IsTable p.shared.heap t → t ≠ i := by
    rintro t ⟨c, v, hc, hv⟩ rfl
    cases hc.symm.trans hci
    rw [hv] at hsc
    cases hsc
  rw [hp.books.live_iff]
  constructor
  · rintro ⟨k, hk, hpath⟩
    rcases Relation.ReflTransGen.cases_tail hpath with rfl | ⟨t, hto, c, hc, hmem⟩
    · -- held itself
      rcases (hheld i).1 hk with h | h | ⟨w, hw, hpos⟩
      · exact .inl h
      · exact absurd rfl (hnotTable i (hp.current i h).1)
      · rcases Worker.holds_pos.1 hpos with htab | ⟨conn, seen, host, rfl⟩
        · have hright := hp.workers w hw
          cases w with
          | idle conn => exact absurd htab (hnotTable _ (Conn.Right.table hright))
          | busy conn j seen host => exact absurd htab (hnotTable _ hright.1.table)
        · exact .inr (.inl ⟨conn, seen, host, hw⟩)
    · -- owned by a table, and nothing owns a table
      have htable : IsTable p.shared.heap t := by
        obtain ⟨d, hd, hlt⟩ := hp.books.below t c hc i hmem
        cases hci.symm.trans hd
        cases hv : c.value with
        | table v => exact ⟨c, v, hc, hv⟩
        | cache x =>
          rw [hv] at hlt
          exact absurd hlt (Nat.not_lt_zero _)
      have hroot : k = t := by
        rcases Relation.ReflTransGen.cases_tail hto with rfl | ⟨u, -, d, hd, hmem'⟩
        · rfl
        · obtain ⟨e, x, he, hx⟩ := hp.owned_cache hd hmem'
          obtain ⟨e', v, he', hv⟩ := htable
          cases he.symm.trans he'
          rw [hx] at hv
          cases hv
      subst hroot
      refine .inr (.inr ⟨k, c, hc, hmem, ?_⟩)
      rcases (hheld k).1 hk with h | h | ⟨w, hw, hpos⟩
      · obtain ⟨e, x, he, hx⟩ := hp.built k h
        obtain ⟨e', v, he', hv⟩ := htable
        cases he.symm.trans he'
        rw [hx] at hv
        cases hv
      · exact .inl h
      · refine .inr ⟨w, hw, ?_⟩
        rcases Worker.holds_pos.1 hpos with htab | ⟨conn, seen, host, rfl⟩
        · exact htab
        · obtain ⟨e, x, he, hx⟩ := (hp.workers _ hw).2.1
          obtain ⟨e', v, he', hv⟩ := htable
          cases he.symm.trans he'
          rw [hx] at hv
          cases hv
  · rintro (h | ⟨conn, seen, host, hw⟩ | ⟨t, c, hc, hmem, h⟩)
    · exact ⟨i, (hheld i).2 (.inl h), .refl⟩
    · exact ⟨i, (hheld i).2 (.inr (.inr ⟨_, hw, Worker.holds_pos.2 (.inr ⟨conn, seen, host, rfl⟩)⟩)), .refl⟩
    · refine ⟨t, (hheld t).2 (.inr ?_), .single ⟨c, hc, hmem⟩⟩
      rcases h with h | ⟨w, hw, htab⟩
      · exact .inl h
      · exact .inr ⟨w, hw, Worker.holds_pos.2 (.inl htab)⟩

/-- Over any interleaving, from a disk on which the stale builds of a `disk_cache` were cleared: every file that the
build of a held cache recorded is on disk as it was written; whatever is found below a snapshot directory there, and
could be removed, is of the build under way or of a cache that is held; and the disk outside of snapshot directories is
as it was. -/
theorem snapshots_exact (hu : Unnested dirs) {d : Path} {disk : Disk}
    (hr : Process.Reachable dirs sticks (clearStaleBuilds sticks d disk) p) :
    (∀ i bd, p.Holds i → (cacheAt p.shared.heap i).buildDir = some bd → ∀ path content,
      bd.files.lookup path = some content → p.shared.disk path = some content) ∧
    (∀ path n, under (buildsIn d n) path = true → sticks path = false → p.shared.disk path ≠ none →
      (∃ b, p.shared.wip = some b ∧ under b.dir.path path = true) ∨
      ∃ i bd, p.Holds i ∧ (cacheAt p.shared.heap i).buildDir = some bd ∧ under bd.path path = true) ∧
    ∀ path, (∀ d' n, dirs d' → under (buildsIn d' n) path = false) →
      p.shared.disk path = clearStaleBuilds sticks d disk path := by
  have hp := hr.pinned hu
  refine ⟨fun i bd hi hbd path content hl => ?_, fun path n hunder hst hpath => ?_, hp.snapshots.outside⟩
  · -- only a cache has a snapshot
    have hcache : IsCache p.shared.heap i := by
      unfold cacheAt at hbd
      split at hbd
      · rename_i c strong owns hc
        exact ⟨_, c, hc, rfl⟩
      · cases hbd
    have hlive := (hp.live_cache hcache).2 hi
    obtain ⟨c, sc, hc, hsc⟩ := hcache
    rw [cacheAt_of_get hc hsc] at hbd
    rw [Heap.strong_of_get hc] at hlive
    exact hp.snapshots.intact (some i) bd ⟨c, sc, hc, hlive, hsc, hbd⟩ path content hl
  · rcases hp.snapshots.accounted path hpath with h | h | ⟨o, bd, hown, hbelow⟩
    · exact absurd (clearStaleBuilds_under hunder hst) h
    · rw [hst] at h
      cases h
    · cases o with
      | none =>
        obtain ⟨b, hb, rfl⟩ := hown
        exact .inl ⟨b, hb, hbelow⟩
      | some i =>
        obtain ⟨c, sc, hc, hpos, hsc, hbd⟩ := hown
        refine .inr ⟨i, bd, (hp.live_cache ⟨c, sc, hc, hsc⟩).1 ?_, ?_, hbelow⟩
        · rwa [Heap.strong_of_get hc]
        · rwa [cacheAt_of_get hc hsc]

/-- A snapshot of an earlier process. -/
def leftover : Disk := Function.update (fun _ => none) (str "/snap/build-9/identity/f") (some (str "old"))

/-- The leftover is gone, and the page's snapshot is there for the request that holds its cache. -/
theorem snapshots_exact_rebuilt :
    let p : Process := ⟨rebuilt (clearStaleBuilds (fun _ => false) (str "/snap") leftover),
      [.busy ⟨1, ⟨∅⟩, 0, [0]⟩ 0 pageTable (str "a.example")]⟩
    leftover (str "/snap/build-9/identity/f") = some (str "old") ∧ p.Holds 0 ∧
    (∀ i bd, p.Holds i → (cacheAt p.shared.heap i).buildDir = some bd → ∀ path content,
      bd.files.lookup path = some content → p.shared.disk path = some content) ∧
    (∀ path n, under (buildsIn (str "/snap") n) path = true → p.shared.disk path ≠ none →
      (∃ b, p.shared.wip = some b ∧ under b.dir.path path = true) ∨
      ∃ i bd, p.Holds i ∧ (cacheAt p.shared.heap i).buildDir = some bd ∧ under bd.path path = true) ∧
    ∀ path, (∀ d' n, d' = str "/snap" → under (buildsIn d' n) path = false) →
      p.shared.disk path = clearStaleBuilds (fun _ => false) (str "/snap") leftover path := by
  intro p
  have hexact := snapshots_exact (unnested_single _) (rebuilt_reachable (clearStaleBuilds (fun _ => false) (str "/snap") leftover))
  refine ⟨Function.update_self .., .inr (.inl ⟨_, _, _, List.mem_singleton_self _⟩), hexact.1, fun path n hunder => ?_, hexact.2.2⟩
  exact hexact.2.1 path n hunder rfl

end BareServer
