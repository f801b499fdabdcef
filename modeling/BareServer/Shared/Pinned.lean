/-
What holds of the shared state and its workers over any interleaving: the counts of all handles are exact, the
snapshots of live caches are intact on disk, every live table reads as the newest version of it that was published,
and every worker holds what it saw.
-/
import BareServer.Shared.Arcs

namespace BareServer

open BareServer.Lib

variable {dirs : Path → Prop} {sticks : Path → Bool} {base : Disk} {s s' : Common} {h h' : Heap Pointee}

/-! ## Values stay -/

/-- No allocation changes what it keeps. -/
def Grown (h h' : Heap Pointee) : Prop :=
  ∀ (i : Nat) (c : Cell Pointee), h[i]? = some c → ∃ c' : Cell Pointee, h'[i]? = some c' ∧ c'.value = c.value

theorem Grown.refl (h : Heap Pointee) : Grown h h := fun _ c hc => ⟨c, hc, rfl⟩

theorem Grown.alloc (h : Heap Pointee) (x : Pointee) (owns : List Nat) : Grown h (h.alloc x owns) := by
  intro i c hc
  have hi : i < h.length := (List.getElem?_eq_some_iff.1 hc).1
  exact ⟨c, by rw [Heap.get_alloc, if_neg (by omega), hc], rfl⟩

theorem Grown.update (h : Heap Pointee) (i : Nat) {f : Cell Pointee → Cell Pointee} (hf : ∀ c, (f c).value = c.value) :
    Grown h (h.update i f) := by
  intro j c hc
  cases hi : h[i]? with
  | none => exact ⟨c, by rw [Heap.update, hi, Option.elim_none, hc], rfl⟩
  | some d =>
    rw [Heap.update_of_get hi]
    by_cases hj : j = i
    · subst hj
      cases hc.symm.trans hi
      exact ⟨f c, by rw [Heap.get_set hi, if_pos rfl], hf c⟩
    · exact ⟨c, by rw [Heap.get_set hi, if_neg hj, hc], rfl⟩

theorem Grown.dropped {freed : List Pointee} (hd : Heap.Dropped h h' freed) : Grown h h' := by
  intro i c hc
  obtain ⟨c', hc', hv, -⟩ := hd.kept i c hc
  exact ⟨c', hc', hv⟩

/-- A handle to a cache. -/
def IsCache (h : Heap Pointee) (i : Nat) : Prop := ∃ (c : Cell Pointee) (sc : SiteCache), h[i]? = some c ∧ c.value = .cache sc

/-- A handle to a table. -/
def IsTable (h : Heap Pointee) (t : Nat) : Prop := ∃ (c : Cell Pointee) (v : Vhosts), h[t]? = some c ∧ c.value = .table v

theorem IsCache.grown {i : Nat} (hi : IsCache h i) (hg : Grown h h') : IsCache h' i := by
  obtain ⟨c, sc, hc, hv⟩ := hi
  obtain ⟨c', hc', hv'⟩ := hg i c hc
  exact ⟨c', sc, hc', hv'.trans hv⟩

theorem IsTable.grown {t : Nat} (ht : IsTable h t) (hg : Grown h h') : IsTable h' t := by
  obtain ⟨c, v, hc, hv⟩ := ht
  obtain ⟨c', hc', hv'⟩ := hg t c hc
  exact ⟨c', v, hc', hv'.trans hv⟩

theorem cacheAt_of_get {i : Nat} {c : Cell Pointee} {sc : SiteCache} (hc : h[i]? = some c) (hv : c.value = .cache sc) :
    cacheAt h i = sc := by
  obtain ⟨value, strong, owns⟩ := c
  cases hv
  rw [cacheAt, hc]

theorem cacheAt_grown {i : Nat} (hi : IsCache h i) (hg : Grown h h') : cacheAt h' i = cacheAt h i := by
  obtain ⟨c, sc, hc, hv⟩ := hi
  obtain ⟨c', hc', hv'⟩ := hg i c hc
  rw [cacheAt_of_get hc hv, cacheAt_of_get hc' (hv'.trans hv)]

theorem cacheIn_congr {v : Vhosts} {owns : List Nat} (hcaches : ∀ i ∈ owns, cacheAt h' i = cacheAt h i) (id : Nat) :
    cacheIn h' v owns id = cacheIn h v owns id := by
  unfold cacheIn
  cases hi : owns[v.slot id]? with
  | none => rfl
  | some i => exact hcaches i (List.mem_of_getElem? hi)

theorem tableAt_of_get {t : Nat} {c : Cell Pointee} {v : Vhosts} (hc : h[t]? = some c) (hv : c.value = .table v) :
    tableAt h t = some (v.reading (cacheIn h v c.owns)) := by
  obtain ⟨value, strong, owns⟩ := c
  cases hv
  rw [tableAt, hc]

/-- A table reads the same while it owns the same caches. -/
theorem tableAt_congr {t : Nat} {c c' : Cell Pointee} (hc : h[t]? = some c) (hc' : h'[t]? = some c')
    (hv : c'.value = c.value) (howns : c'.owns = c.owns) (hcaches : ∀ i ∈ c.owns, cacheAt h' i = cacheAt h i) :
    tableAt h' t = tableAt h t := by
  cases hval : c.value with
  | table v =>
    rw [tableAt_of_get hc hval, tableAt_of_get hc' (hv.trans hval), howns]
    refine congrArg some (congrArg v.reading (funext fun id => cacheIn_congr hcaches id))
  | cache sc =>
    obtain ⟨value, strong, owns⟩ := c
    obtain ⟨value', strong', owns'⟩ := c'
    cases hval
    cases hv
    rw [tableAt, tableAt, hc, hc']

/-! ## The log -/

theorem Newest.unique {log : List Version} {t k k' : Nat} (hk : Newest log t k) (hk' : Newest log t k') : k = k' := by
  obtain ⟨⟨ver, hver, ht⟩, hlast⟩ := hk
  obtain ⟨⟨ver', hver', ht'⟩, hlast'⟩ := hk'
  rcases Nat.lt_trichotomy k k' with hlt | heq | hgt
  · exact absurd ht' (hlast k' ver' hlt hver')
  · exact heq
  · exact absurd ht (hlast' k ver hgt hver)

/-- No version of a table is newer than its newest. -/
theorem Newest.le {log : List Version} {t j k : Nat} (hk : Newest log t k) {ver : Version} (hj : log[j]? = some ver)
    (ht : ver.table = t) : j ≤ k := by
  by_contra hlt
  exact hk.2 j ver (by omega) hj ht

theorem Newest.append {log : List Version} {t k : Nat} (hk : Newest log t k) {new : List Version}
    (hnew : ∀ ver ∈ new, ver.table ≠ t) : Newest (log ++ new) t k := by
  obtain ⟨⟨ver, hver, ht⟩, hlast⟩ := hk
  have hlt : k < log.length := (List.getElem?_eq_some_iff.1 hver).1
  refine ⟨⟨ver, by rw [List.getElem?_append_left hlt, hver], ht⟩, fun j ver' hj hver' => ?_⟩
  rw [List.getElem?_append] at hver'
  split at hver'
  · exact hlast j ver' hj hver'
  · exact hnew ver' (List.mem_of_getElem? hver')

theorem Newest.last (log : List Version) (ver : Version) : Newest (log ++ [ver]) ver.table log.length := by
  refine ⟨⟨ver, by simp, rfl⟩, fun j ver' hj hver' => ?_⟩
  rw [List.getElem?_eq_none (by simp; omega)] at hver'
  cases hver'

/-! ## Holding -/

/-- The handles that a worker holds. -/
def Worker.holds : Worker → Nat → Nat
  | .idle conn, k => if k = conn.table then 1 else 0
  | .busy conn i _ _, k => (if k = i then 1 else 0) + if k = conn.table then 1 else 0

/-- The handles that workers hold together. -/
def heldBy (ws : Multiset Worker) (k : Nat) : Nat := (ws.map fun w => w.holds k).sum

@[simp] theorem heldBy_zero (k : Nat) : heldBy 0 k = 0 := rfl

@[simp] theorem heldBy_add (w : Worker) (ws : Multiset Worker) (k : Nat) : heldBy ({w} + ws) k = w.holds k + heldBy ws k := by
  simp [heldBy]

/-- The handles that `watch` and the shared runtime hold. -/
def Common.mine (s : Common) (k : Nat) : Nat := s.live.toList.count k + s.built.count k

/-- The snapshot directories that are owned: by the build under way, and by the live caches. -/
def Common.owner (s : Common) : Option Nat → BuildDir → Prop
  | none, bd => ∃ b, s.wip = some b ∧ b.dir = bd
  | some i, bd => ∃ (c : Cell Pointee) (sc : SiteCache),
      s.heap[i]? = some c ∧ 0 < c.strong ∧ c.value = .cache sc ∧ sc.buildDir = some bd

/-- A connection reads its one table, never back in time, under the certificates it was accepted with. -/
structure Conn.Right (s : Common) (conn : Conn) : Prop where
  table : IsTable s.heap conn.table
  accepted : ∃ ver, s.log[conn.accepted]? = some ver ∧ ver.table = conn.table ∧ ver.tls = conn.tls
  reads : ∀ k ∈ conn.reads, ∃ ver, s.log[k]? = some ver ∧ ver.table = conn.table
  forward : (conn.accepted :: conn.reads).Pairwise (· ≤ ·)

/-- A request in flight has seen the version it read last, and holds the cache of its host in it. -/
def Worker.Right (s : Common) : Worker → Prop
  | .idle conn => conn.Right s
  | .busy conn i seen host => conn.Right s ∧ IsCache s.heap i ∧
      (∃ k ver, conn.reads.getLast? = some k ∧ s.log[k]? = some ver ∧ ver.vhosts = seen) ∧
      ∃ site, seen.sites.lookup host = some site ∧ cacheAt s.heap i = site.cache

/-- The invariant, with some handles in the hands of the step that is being taken. -/
structure Pinned (dirs : Path → Prop) (sticks : Path → Bool) (base : Disk) (extra : Nat → Nat) (s : Common)
    (ws : Multiset Worker) : Prop where
  books : s.heap.Books Pointee.rank fun k => extra k + (heldBy ws k + s.mine k)
  snapshots : Snapshots dirs sticks base s.owner s.disk s.seq
  whole : ∀ (i : Nat) (c : Cell Pointee) (sc : SiteCache), s.heap[i]? = some c → c.value = .cache sc → sc.Whole
  built : ∀ i ∈ s.built, IsCache s.heap i
  slots : ∀ (t : Nat) (c : Cell Pointee) (v : Vhosts), s.heap[t]? = some c → c.value = .table v → 0 < c.strong →
    c.owns.length = v.ids.length
  newest : ∀ (t : Nat) (c : Cell Pointee) (v : Vhosts), s.heap[t]? = some c → c.value = .table v → 0 < c.strong →
    ∃ k ver, Newest s.log t k ∧ s.log[k]? = some ver ∧ tableAt s.heap t = some ver.vhosts
  current : ∀ t, s.live = some t →
    IsTable s.heap t ∧ ∃ ver, s.log.getLast? = some ver ∧ ver.table = t ∧ ver.tls = s.tls
  workers : ∀ w ∈ ws, w.Right s

theorem Conn.Right.mono {conn : Conn} (hr : conn.Right s) (hg : Grown s.heap s'.heap)
    (hlog : ∃ new, s'.log = s.log ++ new) : conn.Right s' := by
  obtain ⟨new, hnew⟩ := hlog
  have hget : ∀ {k : Nat} {ver : Version}, s.log[k]? = some ver → s'.log[k]? = some ver := by
    intro k ver hk
    rw [hnew, List.getElem?_append_left (List.getElem?_eq_some_iff.1 hk).1, hk]
  obtain ⟨ver, hver, hrest⟩ := hr.accepted
  refine ⟨hr.table.grown hg, ⟨ver, hget hver, hrest⟩, fun k hk => ?_, hr.forward⟩
  obtain ⟨ver', hver', ht⟩ := hr.reads k hk
  exact ⟨ver', hget hver', ht⟩

/-- What a worker holds and saw outlives any step of others. -/
theorem Worker.Right.mono {w : Worker} (hr : w.Right s) (hg : Grown s.heap s'.heap)
    (hlog : ∃ new, s'.log = s.log ++ new) : w.Right s' := by
  cases w with
  | idle conn => exact Conn.Right.mono hr hg hlog
  | busy conn i seen host =>
    obtain ⟨hconn, hi, ⟨k, ver, hk, hver, hseen⟩, site, hsite, hcache⟩ := hr
    refine ⟨hconn.mono hg hlog, hi.grown hg, ⟨k, ver, hk, ?_, hseen⟩, site, hsite, (cacheAt_grown hi hg).trans hcache⟩
    obtain ⟨new, hnew⟩ := hlog
    rw [hnew, List.getElem?_append_left (List.getElem?_eq_some_iff.1 hver).1, hver]

namespace Pinned

variable {extra : Nat → Nat} {ws : Multiset Worker} {i t : Nat} {c : Cell Pointee}

/-- Nothing owns a table. -/
theorem owned_cache (hp : Pinned dirs sticks base extra s ws) (hc : s.heap[t]? = some c) (hi : i ∈ c.owns) :
    IsCache s.heap i := by
  obtain ⟨d, hd, hlt⟩ := hp.books.below t c hc i hi
  cases hv : d.value with
  | cache sc => exact ⟨d, sc, hd, hv⟩
  | table v =>
    rw [hv] at hlt
    cases hcv : c.value <;> rw [hcv] at hlt <;> simp [Pointee.rank] at hlt

/-- A live table reads the same in a heap that keeps it. -/
theorem tableAt_kept (hp : Pinned dirs sticks base extra s ws) {h' : Heap Pointee} (hg : Grown s.heap h') {c' : Cell Pointee}
    (hc : s.heap[t]? = some c) (hc' : h'[t]? = some c') (hv : c'.value = c.value) (howns : c'.owns = c.owns) :
    tableAt h' t = tableAt s.heap t :=
  tableAt_congr hc hc' hv howns fun _ hi => cacheAt_grown (hp.owned_cache hc hi) hg

/-- Steps that leave heap, log, live runtime and built caches alone. -/
theorem disk (hp : Pinned dirs sticks base extra s ws) (hheap : s'.heap = s.heap) (hlog : s'.log = s.log)
    (hlive : s'.live = s.live) (htls : s'.tls = s.tls) (hbuilt : s'.built = s.built)
    (hsnap : Snapshots dirs sticks base s'.owner s'.disk s'.seq) : Pinned dirs sticks base extra s' ws := by
  have hmine : s'.mine = s.mine := by
    funext k
    rw [Common.mine, Common.mine, hlive, hbuilt]
  refine ⟨?_, hsnap, ?_, ?_, ?_, ?_, ?_, fun w hw => (hp.workers w hw).mono ?_ ⟨[], by rw [hlog, List.append_nil]⟩⟩
  · rw [hheap, hmine]
    exact hp.books
  · rw [hheap]
    exact hp.whole
  · rw [hheap, hbuilt]
    exact hp.built
  · rw [hheap]
    exact hp.slots
  · rw [hheap, hlog]
    exact hp.newest
  · rw [hheap, hlog, hlive, htls]
    exact hp.current
  · rw [hheap]
    exact Grown.refl _

/-! ## Giving back -/

/-- Dropping what was freed removes what is below its snapshot directories, and nothing else. -/
theorem foldl_drop (path : Path) : ∀ (freed : List Pointee) (disk : Disk),
    (freed.foldl (Pointee.drop sticks) disk path = none ∧
      (∃ sc bd, Pointee.cache sc ∈ freed ∧ sc.buildDir = some bd ∧ under bd.path path = true) ∧ sticks path = false) ∨
    (freed.foldl (Pointee.drop sticks) disk path = disk path ∧
      ¬ ((∃ sc bd, Pointee.cache sc ∈ freed ∧ sc.buildDir = some bd ∧ under bd.path path = true) ∧ sticks path = false))
  | [], disk => .inr ⟨rfl, by simp⟩
  | x :: freed, disk => by
    rw [List.foldl_cons]
    -- what the first one removes
    have hfirst : Pointee.drop sticks disk x path = none ∧
        (∃ sc bd, x = .cache sc ∧ sc.buildDir = some bd ∧ under bd.path path = true) ∧ sticks path = false ∨
        Pointee.drop sticks disk x path = disk path ∧
          ¬ ((∃ sc bd, x = .cache sc ∧ sc.buildDir = some bd ∧ under bd.path path = true) ∧ sticks path = false) := by
      cases x with
      | table v => exact .inr ⟨rfl, by simp⟩
      | cache sc =>
        rw [Pointee.drop]
        cases hbd : sc.buildDir with
        | none =>
          refine .inr ⟨rfl, ?_⟩
          rintro ⟨⟨sc', bd, heq, hsome, -⟩, -⟩
          cases heq
          rw [hbd] at hsome
          cases hsome
        | some bd =>
          rw [Option.elim_some, BuildDir.drop, removeDirAll]
          by_cases hgone : (under bd.path path && !sticks path) = true
          · rw [if_pos hgone]
            rw [Bool.and_eq_true, Bool.not_eq_true'] at hgone
            exact .inl ⟨rfl, ⟨sc, bd, rfl, hbd, hgone.1⟩, hgone.2⟩
          · rw [if_neg hgone]
            refine .inr ⟨rfl, ?_⟩
            rintro ⟨⟨sc', bd', heq, hsome, hunder⟩, hst⟩
            cases heq
            cases hbd.symm.trans hsome
            rw [hunder, hst] at hgone
            exact hgone rfl
    rcases foldl_drop path freed (Pointee.drop sticks disk x) with ⟨hnone, ⟨sc, bd, hmem, hrest⟩, hst⟩ | ⟨heq, hno⟩
    · exact .inl ⟨hnone, ⟨sc, bd, List.mem_cons_of_mem _ hmem, hrest⟩, hst⟩
    · rcases hfirst with ⟨hnone, ⟨sc, bd, rfl, hrest⟩, hst⟩ | ⟨heq', hno'⟩
      · exact .inl ⟨heq.trans hnone, ⟨sc, bd, List.mem_cons_self, hrest⟩, hst⟩
      · refine .inr ⟨heq.trans heq', ?_⟩
        rintro ⟨⟨sc, bd, hmem, hrest⟩, hst⟩
        rcases List.mem_cons.1 hmem with rfl | hmem
        · exact hno' ⟨⟨sc, bd, rfl, hrest⟩, hst⟩
        · exact hno ⟨⟨sc, bd, hmem, hrest⟩, hst⟩

/-- Handles are given back, and the snapshots of what that frees are removed. -/
theorem free (hp : Pinned dirs sticks base extra s ws) (hu : Unnested dirs) {extra' : Nat → Nat} {r : Heap Pointee × List Pointee}
    (hbooks : r.1.Books Pointee.rank fun k => extra' k + (heldBy ws k + s.mine k)) (hd : Heap.Dropped s.heap r.1 r.2) :
    Pinned dirs sticks base extra' (s.free sticks r) ws := by
  have hg : Grown s.heap r.1 := Grown.dropped hd
  -- a live allocation was live, with the same value and the same handles
  have hback : ∀ {j : Nat} {c' : Cell Pointee}, r.1[j]? = some c' →
      ∃ c, s.heap[j]? = some c ∧ c.value = c'.value ∧ (0 < c'.strong → 0 < c.strong ∧ c.owns = c'.owns) := by
    intro j c' hc'
    have hlt : j < s.heap.length := hd.length ▸ (List.getElem?_eq_some_iff.1 hc').1
    obtain ⟨d, hd1, hval, hle, howns⟩ := hd.kept j _ (List.getElem?_eq_getElem hlt)
    cases hc'.symm.trans hd1
    exact ⟨_, List.getElem?_eq_getElem hlt, hval.symm, fun hpos => ⟨by omega, (howns hpos).symm⟩⟩
  refine ⟨hbooks, ?_, ?_, fun i hi => (hp.built i hi).grown hg, ?_, ?_, ?_,
    fun w hw => (hp.workers w hw).mono hg ⟨[], by rw [Common.free, List.append_nil]⟩⟩
  · -- exactly the owners that died are gone
    let gone : Option Nat → Prop := fun o => ∃ j, o = some j ∧ r.1.strong j = 0
    have hremoved : Snapshots dirs sticks base (fun o bd => s.owner o bd ∧ ¬ gone o) (r.2.foldl (Pointee.drop sticks) s.disk)
        s.seq := by
      refine hp.snapshots.remove hu gone fun path => ?_
      have hiff : (∃ sc bd, Pointee.cache sc ∈ r.2 ∧ sc.buildDir = some bd ∧ under bd.path path = true) ↔
          ∃ o bd, gone o ∧ s.owner o bd ∧ under bd.path path = true := by
        constructor
        · rintro ⟨sc, bd, hmem, hbd, hunder⟩
          obtain ⟨j, c, hc, hv, hpos, hzero⟩ := (hd.died _).1 hmem
          exact ⟨some j, bd, ⟨j, rfl, hzero⟩, ⟨c, sc, hc, hpos, hv, hbd⟩, hunder⟩
        · rintro ⟨_, bd, ⟨j, rfl, hzero⟩, ⟨c, sc, hc, hpos, hv, hbd⟩, hunder⟩
          exact ⟨sc, bd, (hd.died _).2 ⟨j, c, hc, hv, hpos, hzero⟩, hbd, hunder⟩
      rw [← hiff]
      exact foldl_drop path r.2 s.disk
    refine hremoved.pass id ?_ (fun _ _ _ _ _ _ heq => heq) ?_
    · rintro (_ | j) bd hown
      · exact ⟨bd, ⟨hown, fun ⟨j, hj, _⟩ => by cases hj⟩, rfl, fun _ _ hl => hl⟩
      · obtain ⟨c', sc, hc', hpos, hv, hbd⟩ := hown
        obtain ⟨c, hc, hval, hlive⟩ := hback hc'
        refine ⟨bd, ⟨⟨c, sc, hc, (hlive hpos).1, hval.trans hv, hbd⟩, ?_⟩, rfl, fun _ _ hl => hl⟩
        rintro ⟨j', hj', hzero⟩
        cases hj'
        have hget : r.1[j]? = some c' := hc'
        rw [Heap.strong_of_get hget] at hzero
        omega
    · rintro (_ | j) bd ⟨hown, hstay⟩
      · exact ⟨none, bd, hown, rfl⟩
      · obtain ⟨c, sc, hc, -, hv, hbd⟩ := hown
        obtain ⟨c', hc', hval⟩ := hg j c hc
        refine ⟨some j, bd, ⟨c', sc, hc', ?_, hval.trans hv, hbd⟩, rfl⟩
        refine Nat.pos_of_ne_zero fun hzero => hstay ⟨j, rfl, ?_⟩
        rw [Heap.strong_of_get hc', hzero]
  · intro j c' sc hc' hv
    obtain ⟨c, hc, hval, -⟩ := hback hc'
    exact hp.whole j c sc hc (hval.trans hv)
  · intro t c' v hc' hv hpos
    obtain ⟨c, hc, hval, hlive⟩ := hback hc'
    rw [← (hlive hpos).2]
    exact hp.slots t c v hc (hval.trans hv) (hlive hpos).1
  · intro t c' v hc' hv hpos
    obtain ⟨c, hc, hval, hlive⟩ := hback hc'
    obtain ⟨k, ver, hk, hver, htab⟩ := hp.newest t c v hc (hval.trans hv) (hlive hpos).1
    exact ⟨k, ver, hk, hver, (hp.tableAt_kept hg hc hc' hval.symm (hlive hpos).2.symm).trans htab⟩
  · intro t ht
    obtain ⟨htable, hver⟩ := hp.current t ht
    exact ⟨htable.grown hg, hver⟩

theorem rank_lt_two (c : Cell Pointee) : Pointee.rank c.value < 2 := by
  cases c.value <;> simp [Pointee.rank]

/-- One handle that the step holds is given back. -/
theorem drop (hu : Unnested dirs) (hp : Pinned dirs sticks base (fun k => if k = i then 1 else 0) s ws) :
    Pinned dirs sticks base 0 (s.drop sticks i) ws := by
  obtain ⟨hbooks, hd⟩ := Heap.drop_spec hp.books fun c _ => rank_lt_two c
  refine hp.free hu (hbooks.congr fun k => ?_) hd
  simp

theorem dropAll {is : List Nat} (hu : Unnested dirs) (hp : Pinned dirs sticks base (fun k => is.count k) s ws) :
    Pinned dirs sticks base 0 (s.dropAll sticks is) ws := by
  obtain ⟨hbooks, hd⟩ := Heap.dropAll_spec hp.books fun _ _ c _ => rank_lt_two c
  refine hp.free hu (hbooks.congr fun k => ?_) hd
  simp

/-! ## New allocations -/

theorem count_one (i k : Nat) : [i].count k = if k = i then 1 else 0 := by
  rw [List.count_singleton]
  simp only [beq_iff_eq, eq_comm (a := i)]

theorem mine_hold (s : Common) (x : SiteCache) (k : Nat) :
    (s.hold x).mine k = (if k = s.heap.length then 1 else 0) + s.mine k := by
  simp only [Common.mine, Common.hold, List.count_append, count_one]
  omega

/-- What was known of the allocations before holds of them still. -/
theorem alloc_cells {x : Pointee} {is : List Nat} {j : Nat} {c' : Cell Pointee} (hc' : (s.heap.alloc x is)[j]? = some c') :
    j = s.heap.length ∧ c' = ⟨x, 1, is⟩ ∨ s.heap[j]? = some c' := by
  rw [Heap.get_alloc] at hc'
  split at hc'
  · rename_i hj
    exact .inl ⟨hj, (Option.some.inj hc').symm⟩
  · exact .inr hc'

/-- A built cache is held by `watch`; its snapshot, if it has one, is that of the build that ends with it. -/
theorem hold (hp : Pinned dirs sticks base 0 s ws) {x : SiteCache} {wip' : Option Build} (hx : x.Whole)
    (hsnap : Snapshots dirs sticks base { s.hold x with wip := wip' }.owner s.disk s.seq) :
    Pinned dirs sticks base 0 { s.hold x with wip := wip' } ws := by
  have hg : Grown s.heap (s.heap.alloc (.cache x) []) := Grown.alloc _ _ _
  refine ⟨?_, hsnap, ?_, ?_, ?_, ?_, fun t ht => ?_, fun w hw => (hp.workers w hw).mono hg ⟨[], by simp [Common.hold]⟩⟩
  · have hbooks : s.heap.Books Pointee.rank fun k => [].count k + (heldBy ws k + s.mine k) := hp.books.congr fun k => by simp
    refine (hbooks.alloc (.cache x) [] nofun).congr fun k => ?_
    have hmine : Common.mine { s.hold x with wip := wip' } k = (s.hold x).mine k := rfl
    rw [hmine, mine_hold]
    simp only [Pi.zero_apply]
    omega
  · intro j c' sc hc' hv
    rcases alloc_cells hc' with ⟨-, rfl⟩ | hc
    · cases hv
      exact hx
    · exact hp.whole j c' sc hc hv
  · intro j hj
    rcases List.mem_append.1 hj with hj | hj
    · exact (hp.built j hj).grown hg
    · rw [List.mem_singleton] at hj
      have hnew : (s.heap.alloc (.cache x) [])[j]? = some ⟨.cache x, 1, []⟩ := (Heap.get_alloc _ _ j).trans (if_pos hj)
      exact ⟨_, x, hnew, rfl⟩
  · intro t c' v hc' hv hpos
    rcases alloc_cells hc' with ⟨-, rfl⟩ | hc
    · cases hv
    · exact hp.slots t c' v hc hv hpos
  · intro t c' v hc' hv hpos
    rcases alloc_cells hc' with ⟨-, rfl⟩ | hc
    · cases hv
    · obtain ⟨k, ver, hk, hver, htab⟩ := hp.newest t c' v hc hv hpos
      exact ⟨k, ver, hk, hver, (hp.tableAt_kept hg hc hc' rfl rfl).trans htab⟩
  · obtain ⟨htable, hver⟩ := hp.current t ht
    exact ⟨htable.grown hg, hver⟩

/-- A table that takes over caches reads as it was built. -/
theorem install_reads (hp : Pinned dirs sticks base extra s ws) {v : Vhosts} {is : List Nat} (hb : is.Perm s.built)
    (hv : v.reading (cacheIn s.heap v is) = v) : tableAt (s.heap.alloc (.table v) is) s.heap.length = some v := by
  have hnew : (s.heap.alloc (.table v) is)[s.heap.length]? = some ⟨.table v, 1, is⟩ :=
    (Heap.get_alloc _ _ _).trans (if_pos rfl)
  rw [tableAt_of_get hnew rfl]
  refine congrArg some (Eq.trans (congrArg v.reading (funext fun id => ?_)) hv)
  exact cacheIn_congr (fun i hi => cacheAt_grown (hp.built i (hb.mem_iff.1 hi)) (Grown.alloc _ _ _)) id

/-- A table takes over the built caches, goes live, and is published; a table that was live is in the hands of the
step. -/
theorem install (hp : Pinned dirs sticks base 0 s ws) {v : Vhosts} {is : List Nat} (tls : ServerConfig)
    (hb : is.Perm s.built) (hlen : is.length = v.ids.length) (hv : v.reading (cacheIn s.heap v is) = v) :
    (s.install v is tls).publish.log = s.log ++ [⟨s.heap.length, v, tls⟩] ∧
      Pinned dirs sticks base (fun k => s.live.toList.count k) (s.install v is tls).publish ws := by
  have hg : Grown s.heap (s.heap.alloc (.table v) is) := Grown.alloc _ _ _
  have hcaches : ∀ i ∈ is, IsCache s.heap i := fun i hi => hp.built i (hb.mem_iff.1 hi)
  have hnew : (s.heap.alloc (.table v) is)[s.heap.length]? = some ⟨.table v, 1, is⟩ :=
    (Heap.get_alloc _ _ _).trans (if_pos rfl)
  have htab := hp.install_reads hb hv
  have hlog : (s.install v is tls).publish.log = s.log ++ [⟨s.heap.length, v, tls⟩] := by
    simp only [Common.publish, Common.install, Option.bind_some, htab, Option.map_some, Option.toList_some]
  refine ⟨hlog, ?_, ?_, ?_, (fun i hi => by cases hi), ?_, ?_, fun t ht => ?_,
    fun w hw => (hp.workers w hw).mono hg ⟨_, hlog⟩⟩
  · have hbooks : s.heap.Books Pointee.rank fun k => is.count k + (heldBy ws k + s.live.toList.count k) := by
      refine hp.books.congr fun k => ?_
      have := hb.count_eq k
      simp only [Pi.zero_apply, Common.mine]
      omega
    refine (hbooks.alloc (.table v) is fun i hi => ?_).congr fun k => ?_
    · obtain ⟨c, sc, hc, hsc⟩ := hcaches i hi
      exact ⟨c, hc, by rw [hsc]; exact Nat.zero_lt_one⟩
    · simp only [Common.mine, Common.publish, Common.install, Option.toList_some, count_one, List.count_nil]
      omega
  · refine hp.snapshots.pass id ?_ (fun _ _ _ _ _ _ heq => heq) ?_
    · rintro (_ | j) bd hown
      · exact ⟨bd, hown, rfl, fun _ _ hl => hl⟩
      · obtain ⟨c', sc, hc', hpos, hval, hbd⟩ := hown
        rcases alloc_cells hc' with ⟨-, rfl⟩ | hc
        · cases hval
        · exact ⟨bd, ⟨c', sc, hc, hpos, hval, hbd⟩, rfl, fun _ _ hl => hl⟩
    · rintro (_ | j) bd hown
      · exact ⟨none, bd, hown, rfl⟩
      · obtain ⟨c, sc, hc, hpos, hval, hbd⟩ := hown
        have hlt : j < s.heap.length := (List.getElem?_eq_some_iff.1 hc).1
        exact ⟨some j, bd, ⟨c, sc, (Heap.get_alloc _ _ j).trans ((if_neg (by omega)).trans hc), hpos, hval, hbd⟩, rfl⟩
  · intro j c' sc hc' hval
    rcases alloc_cells hc' with ⟨-, rfl⟩ | hc
    · cases hval
    · exact hp.whole j c' sc hc hval
  · intro t c' v' hc' hval hpos
    rcases alloc_cells hc' with ⟨-, rfl⟩ | hc
    · cases hval
      exact hlen
    · exact hp.slots t c' v' hc hval hpos
  · intro t c' v' hc' hval hpos
    rw [hlog]
    rcases alloc_cells hc' with ⟨rfl, rfl⟩ | hc
    · exact ⟨s.log.length, ⟨s.heap.length, v, tls⟩, Newest.last s.log _, List.getElem?_concat_length, htab⟩
    · obtain ⟨k, ver, hk, hver, hread⟩ := hp.newest t c' v' hc hval hpos
      have hlt : t < s.heap.length := (List.getElem?_eq_some_iff.1 hc).1
      refine ⟨k, ver, hk.append fun ver' hmem => ?_, ?_, (hp.tableAt_kept hg hc hc' rfl rfl).trans hread⟩
      · rw [List.mem_singleton.1 hmem]
        exact fun heq => by simp only at heq; omega
      · rw [List.getElem?_append_left (List.getElem?_eq_some_iff.1 hver).1, hver]
  · cases ht
    exact ⟨⟨_, v, hnew, rfl⟩, _, by rw [hlog, List.getLast?_concat], rfl, rfl⟩

/-! ## Swaps -/

/-- The live table is live, and reads as some version. -/
theorem live_table {extra : Nat → Nat} (hp : Pinned dirs sticks base extra s ws) (hl : s.live = some t) :
    ∃ (c : Cell Pointee) (v : Vhosts), s.heap[t]? = some c ∧ c.value = .table v ∧ 0 < c.strong := by
  obtain ⟨⟨c, v, hc, hv⟩, -⟩ := hp.current t hl
  have hheld : 0 < extra t + (heldBy ws t + s.mine t) := by
    have : 0 < s.live.toList.count t := by simp [hl]
    simp only [Common.mine]
    omega
  obtain ⟨c', hc', hpos⟩ := hp.books.get hheld
  cases hc.symm.trans hc'
  exact ⟨c, v, hc, hv, hpos⟩

/-- The live runtime is published once more: its table reads as it does now. -/
theorem publish_log {s : Common} {v : Vhosts} (hl : s.live = some t) (ht : tableAt s.heap t = some v) :
    s.publish.log = s.log ++ [⟨t, v, s.tls⟩] := by
  simp only [Common.publish, hl, Option.bind_some, ht, Option.map_some, Option.toList_some]

/-- New certificates over the live table. -/
theorem renew (hp : Pinned dirs sticks base 0 s ws) (tls : ServerConfig) (hl : s.live = some t) :
    ∃ ver, (Common.publish { s with tls := tls }).log = s.log ++ [ver] ∧ ver.tls = tls ∧
      Pinned dirs sticks base 0 (Common.publish { s with tls := tls }) ws := by
  obtain ⟨c, v, hc, hv, -⟩ := hp.live_table hl
  have htab := tableAt_of_get hc hv
  have hlog : (Common.publish { s with tls := tls }).log = s.log ++ [⟨t, _, tls⟩] := publish_log hl htab
  refine ⟨_, hlog, rfl, hp.books, hp.snapshots, hp.whole, hp.built, hp.slots, fun t' c' v' hc' hv' hpos' => ?_, fun t' ht' => ?_,
    fun w hw => (hp.workers w hw).mono (Grown.refl _) ⟨_, hlog⟩⟩
  · rw [hlog]
    obtain ⟨k, ver, hk, hver, hread⟩ := hp.newest t' c' v' hc' hv' hpos'
    by_cases heq : t' = t
    · subst heq
      exact ⟨s.log.length, ⟨t', _, tls⟩, Newest.last s.log _, List.getElem?_concat_length, htab⟩
    · refine ⟨k, ver, hk.append fun ver' hmem => ?_, ?_, hread⟩
      · rw [List.mem_singleton.1 hmem]
        exact Ne.symm heq
      · rw [List.getElem?_append_left (List.getElem?_eq_some_iff.1 hver).1, hver]
  · have heq : t' = t := Option.some.inj (ht'.symm.trans hl)
    subst heq
    exact ⟨⟨c, v, hc, hv⟩, _, by rw [hlog, List.getLast?_concat], rfl, rfl⟩

/-- A rebuilt cache goes into a slot of the live table, which is published; the one it replaces is in the hands of the
step. -/
theorem swap (hp : Pinned dirs sticks base 0 s ws) {j old slot : Nat} (hl : s.live = some t) (hb : s.built = [j])
    (hc : s.heap[t]? = some c) (hold : c.owns[slot]? = some old) :
    ∃ ver, (Common.publish { s with heap := s.heap.replace t slot j, built := [] }).log = s.log ++ [ver] ∧
      tableAt (s.heap.replace t slot j) t = some ver.vhosts ∧ ver.tls = s.tls ∧
      Pinned dirs sticks base (fun k => if k = old then 1 else 0)
        (Common.publish { s with heap := s.heap.replace t slot j, built := [] }) ws := by
  obtain ⟨d, v, hd, hv, hpos⟩ := hp.live_table hl
  cases hc.symm.trans hd
  obtain ⟨dj, sc, hdj, hsc⟩ := hp.built j (by rw [hb]; exact List.mem_singleton_self j)
  have hg : Grown s.heap (s.heap.replace t slot j) := Grown.update _ _ fun _ => rfl
  have hnew : (s.heap.replace t slot j)[t]? = some { c with owns := c.owns.set slot j } := by
    rw [Heap.replace, Heap.update_of_get hc, Heap.get_set hc, if_pos rfl]
  have hother : ∀ {i : Nat}, i ≠ t → (s.heap.replace t slot j)[i]? = s.heap[i]? := by
    intro i hi
    rw [Heap.replace, Heap.update_of_get hc, Heap.get_set hc, if_neg hi]
  -- no count and no value changes
  have hback : ∀ {i : Nat} {c' : Cell Pointee}, (s.heap.replace t slot j)[i]? = some c' →
      ∃ c0, s.heap[i]? = some c0 ∧ c0.value = c'.value ∧ c0.strong = c'.strong := by
    intro i c' hc'
    by_cases hi : i = t
    · subst hi
      cases hnew.symm.trans hc'
      exact ⟨c, hc, rfl, rfl⟩
    · rw [hother hi] at hc'
      exact ⟨c', hc', rfl, rfl⟩
  have htab := tableAt_of_get hnew hv
  have hlog : (Common.publish { s with heap := s.heap.replace t slot j, built := [] }).log = s.log ++ [⟨t, _, s.tls⟩] :=
    publish_log hl htab
  refine ⟨_, hlog, htab, rfl, ?_, ?_, ?_, (fun i hi => by cases hi), ?_, fun t' c' v' hc' hv' hpos' => ?_, fun t' ht' => ?_,
    fun w hw => (hp.workers w hw).mono hg ⟨_, hlog⟩⟩
  · have hbooks : s.heap.Books Pointee.rank fun k => (if k = j then 1 else 0) + (heldBy ws k + s.live.toList.count k) := by
      refine hp.books.congr fun k => ?_
      simp only [Pi.zero_apply, Common.mine, hb, count_one]
      omega
    refine (hbooks.replace hc hold hdj (by rw [hsc, hv]; exact Nat.zero_lt_one)).congr fun k => ?_
    simp only [Common.mine, Common.publish, List.count_nil]
    omega
  · refine hp.snapshots.pass id ?_ (fun _ _ _ _ _ _ heq => heq) ?_
    · rintro (_ | i) bd hown
      · exact ⟨bd, hown, rfl, fun _ _ hl => hl⟩
      · obtain ⟨c', sc', hc', hpos', hv', hbd⟩ := hown
        obtain ⟨c0, hc0, hval, hstrong⟩ := hback hc'
        exact ⟨bd, ⟨c0, sc', hc0, hstrong ▸ hpos', hval.trans hv', hbd⟩, rfl, fun _ _ hl => hl⟩
    · rintro (_ | i) bd hown
      · exact ⟨none, bd, hown, rfl⟩
      · obtain ⟨c0, sc', hc0, hpos0, hv0, hbd⟩ := hown
        by_cases hi : i = t
        · subst hi
          cases hc.symm.trans hc0
          rw [hv] at hv0
          cases hv0
        · exact ⟨some i, bd, ⟨c0, sc', (hother hi).trans hc0, hpos0, hv0, hbd⟩, rfl⟩
  · intro i c' sc' hc' hv'
    obtain ⟨c0, hc0, hval, -⟩ := hback hc'
    exact hp.whole i c0 sc' hc0 (hval.trans hv')
  · intro t' c' v' hc' hv' hpos'
    by_cases ht' : t' = t
    · subst ht'
      cases hnew.symm.trans hc'
      rw [List.length_set]
      exact hp.slots t' c v' hc hv' hpos
    · exact hp.slots t' c' v' ((hother ht').symm.trans hc') hv' hpos'
  · rw [hlog]
    by_cases ht' : t' = t
    · subst ht'
      exact ⟨s.log.length, ⟨t', _, s.tls⟩, Newest.last s.log _, List.getElem?_concat_length, htab⟩
    · have hc0 : s.heap[t']? = some c' := (hother ht').symm.trans hc'
      obtain ⟨k, ver, hk, hver, hread⟩ := hp.newest t' c' v' hc0 hv' hpos'
      refine ⟨k, ver, hk.append fun ver' hmem => ?_, ?_, (hp.tableAt_kept hg hc0 hc' rfl rfl).trans hread⟩
      · rw [List.mem_singleton.1 hmem]
        exact Ne.symm ht'
      · rw [List.getElem?_append_left (List.getElem?_eq_some_iff.1 hver).1, hver]
  · have heq : t' = t := Option.some.inj (ht'.symm.trans hl)
    subst heq
    exact ⟨⟨_, v, hnew, hv⟩, _, by rw [hlog, List.getLast?_concat], rfl, rfl⟩

/-! ## Clones -/

/-- One more handle to a live allocation, in the hands of the step. -/
theorem clone {extra : Nat → Nat} (hp : Pinned dirs sticks base extra s ws) (hi : 0 < s.heap.strong i) :
    Pinned dirs sticks base (fun k => (if k = i then 1 else 0) + extra k) { s with heap := s.heap.clone i } ws := by
  obtain ⟨c, hc, hpos⟩ := Heap.get_of_strong hi
  have hg : Grown s.heap (s.heap.clone i) := Grown.update _ _ fun _ => rfl
  have hget : ∀ (j : Nat), (s.heap.clone i)[j]? = if j = i then some { c with strong := c.strong + 1 } else s.heap[j]? := by
    intro j
    rw [Heap.clone, Heap.update_of_get hc, Heap.get_set hc]
  have hback : ∀ {j : Nat} {c' : Cell Pointee}, (s.heap.clone i)[j]? = some c' →
      ∃ c0, s.heap[j]? = some c0 ∧ c0.value = c'.value ∧ c0.owns = c'.owns ∧ (0 < c'.strong → 0 < c0.strong) := by
    intro j c' hc'
    rw [hget] at hc'
    split at hc'
    · rename_i hj
      cases hc'
      exact ⟨c, hj ▸ hc, rfl, rfl, fun _ => hpos⟩
    · exact ⟨c', hc', rfl, rfl, fun hpos' => hpos'⟩
  refine ⟨?_, ?_, ?_, fun j hj => (hp.built j hj).grown hg, ?_, fun t c' v hc' hv hpos' => ?_, fun t ht => ?_,
    fun w hw => (hp.workers w hw).mono hg ⟨[], (List.append_nil _).symm⟩⟩
  · refine (hp.books.clone hi).congr fun k => ?_
    simp only [Common.mine]
    omega
  · refine hp.snapshots.pass id ?_ (fun _ _ _ _ _ _ heq => heq) ?_
    · rintro (_ | j) bd hown
      · exact ⟨bd, hown, rfl, fun _ _ hl => hl⟩
      · obtain ⟨c', sc, hc', hpos', hv, hbd⟩ := hown
        obtain ⟨c0, hc0, hval, -, hlive⟩ := hback hc'
        exact ⟨bd, ⟨c0, sc, hc0, hlive hpos', hval.trans hv, hbd⟩, rfl, fun _ _ hl => hl⟩
    · rintro (_ | j) bd hown
      · exact ⟨none, bd, hown, rfl⟩
      · obtain ⟨c0, sc, hc0, hpos0, hv, hbd⟩ := hown
        by_cases hj : j = i
        · subst hj
          cases hc.symm.trans hc0
          exact ⟨some j, bd, ⟨{ c with strong := c.strong + 1 }, sc, (hget j).trans (if_pos rfl), Nat.succ_pos _, hv, hbd⟩, rfl⟩
        · exact ⟨some j, bd, ⟨c0, sc, (hget j).trans ((if_neg hj).trans hc0), hpos0, hv, hbd⟩, rfl⟩
  · intro j c' sc hc' hv
    obtain ⟨c0, hc0, hval, -⟩ := hback hc'
    exact hp.whole j c0 sc hc0 (hval.trans hv)
  · intro t c' v hc' hv hpos'
    obtain ⟨c0, hc0, hval, howns, hlive⟩ := hback hc'
    rw [← howns]
    exact hp.slots t c0 v hc0 (hval.trans hv) (hlive hpos')
  · obtain ⟨c0, hc0, hval, howns, hlive⟩ := hback hc'
    obtain ⟨k, ver, hk, hver, hread⟩ := hp.newest t c0 v hc0 (hval.trans hv) (hlive hpos')
    exact ⟨k, ver, hk, hver, (hp.tableAt_kept hg hc0 hc' hval.symm howns.symm).trans hread⟩
  · obtain ⟨htable, hver⟩ := hp.current t ht
    exact ⟨htable.grown hg, hver⟩

/-- What the step holds becomes what a worker holds, or the other way. -/
theorem hand {extra extra' : Nat → Nat} {ws' : Multiset Worker} (hp : Pinned dirs sticks base extra s ws)
    (hheld : ∀ k, extra k + heldBy ws k = extra' k + heldBy ws' k) (hws : ∀ w ∈ ws', w.Right s) :
    Pinned dirs sticks base extra' s ws' := by
  refine ⟨hp.books.congr fun k => ?_, hp.snapshots, hp.whole, hp.built, hp.slots, hp.newest, hp.current, hws⟩
  have := hheld k
  omega

end Pinned
end BareServer
