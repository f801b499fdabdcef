/-
Any interleaving of `watch` and the workers keeps the invariant: one lemma for each step, and the run from them.
-/
import BareServer.Shared.Pinned

namespace BareServer

open BareServer.Lib

variable {dirs : Path → Prop} {sticks : Path → Bool} {base : Disk} {s s' : Common} {ws : Multiset Worker}

/-! ## What `watch` does -/

theorem SiteCache.buildDir_load {c : SiteCache} (hc : c = .empty ∨ ∃ env p seq root total total' seq', p.storage = .memory ∧
    buildCache env p seq root total = (some (c, total'), seq')) : c.buildDir = none ∧ c.Whole := by
  rcases hc with rfl | ⟨env, p, seq, root, total, total', seq', hmem, hbuild⟩
  · exact ⟨rfl, SiteCache.whole_empty⟩
  · refine ⟨?_, buildCache_whole hbuild⟩
    obtain ⟨fs, b, -, -, rfl⟩ := buildCache_some hbuild
    rw [snapshotDir, hmem]
    rfl

namespace Pinned

/-- The build under way owns its own directory only. -/
theorem owner_wip {b : Build} (hw : s.wip = some b) {bd : BuildDir} : s.owner none bd ↔ bd = b.dir := by
  constructor
  · rintro ⟨b', hb', rfl⟩
    cases hw.symm.trans hb'
    rfl
  · rintro rfl
    exact ⟨b, hw, rfl⟩

theorem create (hp : Pinned dirs sticks base 0 s ws) {p : Policy} (hd : dirs p.diskCache) (hw : s.wip = none) :
    Pinned dirs sticks base 0 { s with seq := s.seq + 1, wip := some ⟨p, s.seq, ∅⟩ } ws := by
  have hfree : ∀ bd, ¬ s.owner none bd := by
    rintro bd ⟨b, hb, -⟩
    rw [hw] at hb
    cases hb
  refine hp.disk rfl rfl rfl rfl rfl ((hp.snapshots.create hd hfree).congr ?_)
  rintro (_ | j) bd
  · constructor
    · rintro (h | ⟨-, rfl⟩)
      · exact absurd h (hfree bd)
      · exact ⟨_, rfl, rfl⟩
    · rintro ⟨b', hb', rfl⟩
      cases hb'
      exact .inr ⟨rfl, rfl⟩
  · exact ⟨fun h => h.elim (fun h => h) (fun h => nomatch h.1), fun h => .inl h⟩

theorem write (hp : Pinned dirs sticks base 0 s ws) (hu : Unnested dirs) {b : Build} {path : Path} (content : Bytes)
    (hw : s.wip = some b) (hin : Inside b.dir.path path) :
    Pinned dirs sticks base 0 { s with
      disk := Function.update s.disk path (some content), wip := some { b with files := b.files.insert path content } } ws := by
  refine hp.disk rfl rfl rfl rfl rfl ((hp.snapshots.write hu ((owner_wip hw).2 rfl) (fun bd' h => (owner_wip hw).1 h)
    content hin).congr ?_)
  rintro (_ | j) bd
  · constructor
    · rintro (⟨hne, -⟩ | ⟨-, rfl⟩)
      · exact absurd rfl hne
      · exact ⟨_, rfl, rfl⟩
    · rintro ⟨b', hb', rfl⟩
      cases hb'
      exact .inr ⟨rfl, rfl⟩
  · exact ⟨fun h => h.elim (fun h => h.2) (fun h => nomatch h.1), fun h => .inl ⟨nofun, h⟩⟩

theorem abort (hp : Pinned dirs sticks base 0 s ws) (hu : Unnested dirs) {b : Build} (hw : s.wip = some b) :
    Pinned dirs sticks base 0 { s with disk := b.dir.drop sticks s.disk, wip := none } ws := by
  have hremoved : Snapshots dirs sticks base (fun o bd => s.owner o bd ∧ ¬ o = none) (b.dir.drop sticks s.disk) s.seq := by
    refine hp.snapshots.remove hu (· = none) fun path => ?_
    have hiff : (∃ o bd, o = none ∧ s.owner o bd ∧ under bd.path path = true) ↔ under b.dir.path path = true := by
      constructor
      · rintro ⟨_, bd, rfl, hown, hunder⟩
        rwa [(owner_wip hw).1 hown] at hunder
      · exact fun h => ⟨none, b.dir, rfl, (owner_wip hw).2 rfl, h⟩
    rw [hiff, BuildDir.drop, removeDirAll]
    cases under b.dir.path path <;> cases sticks path <;> simp
  refine hp.disk rfl rfl rfl rfl rfl (hremoved.congr ?_)
  rintro (_ | j) bd
  · constructor
    · exact fun h => absurd rfl h.2
    · rintro ⟨b', hb', -⟩
      cases hb'
  · exact ⟨fun h => h.1, fun h => ⟨h, Option.some_ne_none j⟩⟩

/-- A build ends: its directory goes to the cache. -/
theorem finish (hp : Pinned dirs sticks base 0 s ws) {b : Build} {c : SiteCache} {env : BuildEnv} {root : Node}
    {total total' seq' : Nat} (hw : s.wip = some b) (hdisk : b.policy.storage = .disk) (hroot : Slashless root)
    (hc : buildCache env b.policy b.number root total = (some (c, total'), seq'))
    (hf : ∀ bd, c.buildDir = some bd → ∀ path content, bd.files.lookup path = some content →
      b.files.lookup path = some content) :
    Pinned dirs sticks base 0 { s.hold c with wip := none } ws := by
  obtain ⟨files, hdir, -⟩ := buildCache_inside hdisk hroot hc
  have hold : ∀ {j : Nat} {c' : Cell Pointee}, s.heap[j]? = some c' → (s.heap.alloc (.cache c) [])[j]? = some c' := by
    intro j c' hc'
    have hlt : j < s.heap.length := (List.getElem?_eq_some_iff.1 hc').1
    rw [Heap.get_alloc, if_neg (by omega), hc']
  refine hp.hold (buildCache_whole hc) ?_
  -- the new cache owns what the build owned
  refine hp.snapshots.pass (fun o => if o = some s.heap.length then none else o) ?_ ?_ ?_
  · rintro (_ | j) bd' hown
    · obtain ⟨b', hb', -⟩ := hown
      cases hb'
    · obtain ⟨c', sc, hc', hpos, hval, hbd⟩ := hown
      rcases alloc_cells hc' with ⟨rfl, rfl⟩ | hold'
      · cases hval
        rw [if_pos rfl]
        refine ⟨b.dir, (owner_wip hw).2 rfl, ?_, hf bd' hbd⟩
        cases hdir.symm.trans hbd
        rfl
      · have hlt : j < s.heap.length := (List.getElem?_eq_some_iff.1 hold').1
        rw [if_neg (fun h => by cases h; omega)]
        exact ⟨bd', ⟨c', sc, hold', hpos, hval, hbd⟩, rfl, fun _ _ hl => hl⟩
  · rintro (_ | j) (_ | k) bd bd' hj hk heq
    · rfl
    · obtain ⟨b', hb', -⟩ := hj
      cases hb'
    · obtain ⟨b', hb', -⟩ := hk
      cases hb'
    · split at heq <;> split at heq
      · rename_i h1 h2
        exact h1.trans h2.symm
      · cases heq
      · cases heq
      · exact heq
  · rintro (_ | j) bd hown
    · rw [owner_wip hw] at hown
      subst hown
      exact ⟨some s.heap.length, ⟨buildDirPath b.policy b.number, files⟩,
        ⟨_, c, (Heap.get_alloc _ _ _).trans (if_pos rfl), Nat.one_pos, rfl, hdir⟩, rfl⟩
    · obtain ⟨c', sc, hc', hrest⟩ := hown
      exact ⟨some j, bd, ⟨c', sc, hold hc', hrest⟩, rfl⟩

theorem load (hp : Pinned dirs sticks base 0 s ws) {c : SiteCache} (hdir : c.buildDir = none) (hwhole : c.Whole) :
    Pinned dirs sticks base 0 (s.hold c) ws := by
  show Pinned dirs sticks base 0 { s.hold c with wip := s.wip } ws
  refine hp.hold hwhole (hp.snapshots.pass id ?_ (fun _ _ _ _ _ _ heq => heq) ?_)
  · rintro (_ | j) bd hown
    · exact ⟨bd, hown, rfl, fun _ _ hl => hl⟩
    · obtain ⟨c', sc, hc', hpos, hval, hbd⟩ := hown
      rcases alloc_cells hc' with ⟨-, rfl⟩ | hc
      · cases hval
        rw [hdir] at hbd
        cases hbd
      · exact ⟨bd, ⟨c', sc, hc, hpos, hval, hbd⟩, rfl, fun _ _ hl => hl⟩
  · rintro (_ | j) bd hown
    · exact ⟨none, bd, hown, rfl⟩
    · obtain ⟨c', sc, hc', hrest⟩ := hown
      have hlt : j < s.heap.length := (List.getElem?_eq_some_iff.1 hc').1
      exact ⟨some j, bd, ⟨c', sc, (Heap.get_alloc _ _ j).trans ((if_neg (by omega)).trans hc'), hrest⟩, rfl⟩

/-- Built caches pass into the hands of the step. -/
theorem release (hp : Pinned dirs sticks base 0 s ws) {is rest : List Nat} (hb : s.built.Perm (is ++ rest)) :
    Pinned dirs sticks base (fun k => is.count k) { s with built := rest } ws := by
  refine ⟨hp.books.congr fun k => ?_, hp.snapshots, hp.whole, fun i hi => ?_, hp.slots, hp.newest, hp.current, fun w hw => ?_⟩
  · have hcount := hb.count_eq k
    rw [List.count_append] at hcount
    simp only [Pi.zero_apply, Common.mine]
    omega
  · exact hp.built i (hb.mem_iff.2 (List.mem_append_right _ hi))
  · exact (hp.workers w hw).mono (Grown.refl _) ⟨[], (List.append_nil _).symm⟩

/-- Every step of `watch` keeps the invariant. -/
theorem watches (hu : Unnested dirs) (h : Watches dirs sticks s s') (hp : Pinned dirs sticks base 0 s ws) :
    Pinned dirs sticks base 0 s' ws := by
  cases h with
  | create hd hw => exact hp.create hd hw
  | refuse => exact hp.disk rfl rfl rfl rfl rfl hp.snapshots.skip
  | write content hw hin => exact hp.write hu content hw hin
  | finish hw hdisk hroot hc hf => exact hp.finish hw hdisk hroot hc hf
  | load hc => exact hp.load (SiteCache.buildDir_load hc).1 (SiteCache.buildDir_load hc).2
  | abort hw => exact hp.abort hu hw
  | discard hb => exact dropAll hu (hp.release hb)
  | boot tls hl hb hlen hv =>
    have hinstalled := (hp.install tls hb hlen hv).2
    rw [hl] at hinstalled
    exact hinstalled
  | reload tls hl hb hlen hv =>
    have hinstalled := (hp.install tls hb hlen hv).2
    rw [hl] at hinstalled
    refine drop hu ?_
    simpa only [Option.toList_some, count_one] using hinstalled
  | renew tls hl =>
    obtain ⟨ver, -, -, hrenewed⟩ := hp.renew tls hl
    exact hrenewed
  | swap hl hb hc hold =>
    obtain ⟨ver, -, -, -, hswapped⟩ := hp.swap hl hb hc hold
    exact drop hu hswapped

/-! ## What workers do -/

/-- The newest version of the live table is the last one published. -/
theorem newest_live {t : Nat} (hp : Pinned dirs sticks base 0 s ws) (hl : s.live = some t) :
    ∃ ver, s.log[s.log.length - 1]? = some ver ∧ ver.table = t ∧ ver.tls = s.tls := by
  obtain ⟨-, ver, hlast, hver⟩ := hp.current t hl
  rw [List.getLast?_eq_getElem?] at hlast
  exact ⟨ver, hlast, hver⟩

theorem accept {t : Nat} (hp : Pinned dirs sticks base 0 s ws) (hl : s.live = some t) :
    Pinned dirs sticks base 0 { s with heap := s.heap.clone t } ({.idle ⟨t, s.tls, s.log.length - 1, []⟩} + ws) := by
  obtain ⟨c, v, hc, hv, hpos⟩ := hp.live_table hl
  have hcloned := hp.clone (Heap.strong_of_get hc ▸ hpos)
  refine hcloned.hand (fun k => ?_) fun w hw => ?_
  · simp only [heldBy_add, Worker.holds, Pi.zero_apply]
    omega
  · rcases Multiset.mem_add.1 hw with hw | hw
    · rw [Multiset.mem_singleton.1 hw]
      obtain ⟨htable, -⟩ := hcloned.current t hl
      exact ⟨htable, hp.newest_live hl, nofun, List.pairwise_singleton _ _⟩
    · exact hcloned.workers w hw

/-- What was last read of a table is not newer than its newest version. -/
theorem forward_append {conn : Conn} {k : Nat} (hr : conn.Right s) (hk : Newest s.log conn.table k) :
    ((conn.accepted :: (conn.reads ++ [k])).Pairwise (· ≤ ·)) := by
  rw [← List.cons_append, List.pairwise_append]
  refine ⟨hr.forward, List.pairwise_singleton _ _, fun j hj k' hk' => ?_⟩
  rw [List.mem_singleton.1 hk']
  rcases List.mem_cons.1 hj with rfl | hj
  · obtain ⟨ver, hver, ht, -⟩ := hr.accepted
    exact hk.le hver ht
  · obtain ⟨ver, hver, ht⟩ := hr.reads j hj
    exact hk.le hver ht

theorem request {conn : Conn} {c : Cell Pointee} {v seen : Vhosts} {host : Str} {site : Site} {i k : Nat}
    (hp : Pinned dirs sticks base 0 s ({.idle conn} + ws)) (hc : s.heap[conn.table]? = some c) (hv : c.value = .table v)
    (ht : tableAt s.heap conn.table = some seen) (hs : seen.sites.lookup host = some site)
    (hi : c.owns[v.slot site.id]? = some i) (hk : Newest s.log conn.table k) :
    Pinned dirs sticks base 0 { s with heap := s.heap.clone i }
      ({.busy { conn with reads := conn.reads ++ [k] } i seen host} + ws) := by
  have hconn : conn.Right s := hp.workers (.idle conn) (Multiset.mem_add.2 (.inl (Multiset.mem_singleton_self _)))
  -- the connection holds the table, and the table the cache
  have hlive : 0 < s.heap.strong conn.table := by
    refine hp.books.live ?_
    simp only [heldBy_add, Worker.holds, if_pos, Pi.zero_apply]
    omega
  have hown : i ∈ c.owns := List.mem_of_getElem? hi
  have hcache := hp.owned_cache hc hown
  have hcloned := hp.clone (hp.books.live_owned hc hown)
  have hg : Grown s.heap (s.heap.clone i) := Grown.update _ _ fun _ => rfl
  obtain ⟨k', ver, hk', hver, hread⟩ := hp.newest conn.table c v hc hv (Heap.strong_of_get hc ▸ hlive)
  cases hk'.unique hk
  refine hcloned.hand (fun j => ?_) fun w hw => ?_
  · simp only [heldBy_add, Worker.holds, Pi.zero_apply]
    omega
  · rcases Multiset.mem_add.1 hw with hw | hw
    · rw [Multiset.mem_singleton.1 hw]
      refine ⟨⟨hconn.table.grown hg, hconn.accepted, fun j hj => ?_, forward_append hconn hk⟩, hcache.grown hg,
        ⟨k, ver, List.getLast?_concat, hver, Option.some.inj (hread.symm.trans ht)⟩, site, hs, ?_⟩
      · rcases List.mem_append.1 hj with hj | hj
        · exact hconn.reads j hj
        · rw [List.mem_singleton.1 hj]
          exact hk.1
      · -- what stands in the site is what the table owns at its place
        rw [cacheAt_grown hcache hg]
        rw [tableAt_of_get hc hv] at ht
        cases ht
        simp only [Vhosts.reading, Map.lookup_mapVal, Option.map_eq_some_iff] at hs
        obtain ⟨site', -, rfl⟩ := hs
        simp only at hi ⊢
        rw [cacheIn, hi, Option.elim_some]
    · exact hcloned.workers w (Multiset.mem_add.2 (.inr hw))

theorem respond {conn : Conn} {i : Nat} {seen : Vhosts} {host : Str} (hu : Unnested dirs)
    (hp : Pinned dirs sticks base 0 s ({.busy conn i seen host} + ws)) :
    Pinned dirs sticks base 0 (s.drop sticks i) ({.idle conn} + ws) := by
  refine drop hu (hp.hand (fun k => ?_) fun w hw => ?_)
  · simp only [heldBy_add, Worker.holds, Pi.zero_apply]
    omega
  · rcases Multiset.mem_add.1 hw with hw | hw
    · rw [Multiset.mem_singleton.1 hw]
      exact (hp.workers (.busy conn i seen host) (Multiset.mem_add.2 (.inl (Multiset.mem_singleton_self _)))).1
    · exact hp.workers w (Multiset.mem_add.2 (.inr hw))

theorem close {conn : Conn} (hu : Unnested dirs) (hp : Pinned dirs sticks base 0 s ({.idle conn} + ws)) :
    Pinned dirs sticks base 0 (s.drop sticks conn.table) ws := by
  refine drop hu (hp.hand (fun k => ?_) fun w hw => hp.workers w (Multiset.mem_add.2 (.inr hw)))
  simp only [heldBy_add, Worker.holds, Pi.zero_apply]
  omega

theorem sum_singletons (l : List Worker) : (l.map fun w => ({w} : Multiset Worker)).sum = l := by
  induction l with
  | nil => rfl
  | cons w l ih =>
    rw [List.map_cons, List.sum_cons, ih]
    rfl

/-- Every step of a worker keeps the invariant, whatever the others hold. -/
theorem works (hu : Unnested dirs) {ts ts' : List Worker} (h : Works sticks s ts s' ts')
    (hp : Pinned dirs sticks base 0 s (ts + ws)) : Pinned dirs sticks base 0 s' (ts' + ws) := by
  cases h with
  | accept hl =>
    rw [Multiset.coe_nil, zero_add] at hp
    exact hp.accept hl
  | request hc hv ht hs hi hk => exact hp.request hc hv ht hs hi hk
  | respond => exact respond hu hp
  | close =>
    rw [Multiset.coe_nil, zero_add]
    exact close hu hp

/-- Every step keeps the invariant. -/
theorem acts (hu : Unnested dirs) :
    Pool.Keeps (Acts dirs sticks) (fun w => ({w} : Multiset Worker)) fun s ws => Pinned dirs sticks base 0 s ws := by
  intro s ts s' ts' h others hp
  simp only [sum_singletons] at hp ⊢
  cases h with
  | watch h =>
    rw [Multiset.coe_nil, zero_add] at hp ⊢
    exact watches hu h hp
  | work h => exact works hu h hp

theorem start (base : Disk) : Pinned dirs sticks base 0 (.start base) 0 := by
  refine ⟨?_, Snapshots.empty _ ?_, nofun, nofun, nofun, nofun, nofun, nofun⟩
  · exact Heap.Books.empty.congr fun k => rfl
  · rintro (_ | j) bd hown
    · obtain ⟨b, hb, -⟩ := hown
      cases hb
    · obtain ⟨c, sc, hc, -⟩ := hown
      cases hc

end Pinned

/-- The run lemma. -/
theorem Process.Reachable.pinned {p : Process} (hu : Unnested dirs) (h : Process.Reachable dirs sticks base p) :
    Pinned dirs sticks base 0 p.shared p.threads := by
  have hkeeps : Pool.Keeps (Acts dirs sticks) (fun w => ({w} : Multiset Worker)) fun s ws =>
    Pinned dirs sticks base 0 s ws := Pinned.acts hu
  have hrun := hkeeps.run h (Pinned.start base)
  rwa [Pool.held, Pinned.sum_singletons] at hrun

namespace Process

variable {ws : List Worker}

theorem Reachable.watch (hr : Reachable dirs sticks base ⟨s, ws⟩) (h : Watches dirs sticks s s') :
    Reachable dirs sticks base ⟨s', ws⟩ := by
  have hact : Acts dirs sticks s [] s' [] := .watch h
  exact hr.tail (.mk [] ws hact)

theorem Reachable.work {l l' : List Worker} (hr : Reachable dirs sticks base ⟨s, l ++ ws⟩) (h : Works sticks s l s' l') :
    Reachable dirs sticks base ⟨s', l' ++ ws⟩ := by
  have hact : Acts dirs sticks s l s' l' := .work h
  exact hr.tail (.mk [] ws hact)

end Process

end BareServer
