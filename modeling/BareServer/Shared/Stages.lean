/-
The accesses of `watch` between the moves of the workers: what the workers cannot change of what `watch` holds and of
what is live, and where each access leads.
-/
import BareServer.Lib.Weave
import BareServer.Shared.Interleaving

namespace BareServer

open BareServer.Lib

variable {dirs : Path → Prop} {sticks : Path → Bool} {base : Disk} {s s' : Common} {ws : Multiset Worker}

/-! ## What is live -/

/-- The runtime that is live, or that none is yet. -/
def LiveIs : Option Runtime → Common → Prop
  | none, s => s.live = none
  | some rt, s => ∃ t, s.live = some t ∧ tableAt s.heap t = some rt.vhosts ∧ s.tls = rt.tls

/-- `watch` beside the workers. What shows is the live runtime. -/
def arena (dirs : Path → Prop) (sticks : Path → Bool) : Arena Process (Option Runtime) where
  mine p p' := ∃ s', Watches dirs sticks p.shared s' ∧ p' = ⟨s', p.threads⟩
  others := Pool.Turn (Works sticks)
  shown v p := LiveIs v p.shared

/-- A step that leaves the live runtime as it is: no allocation changes what it holds, and no live one what it owns. -/
structure Beside (s s' : Common) : Prop where
  live : s'.live = s.live
  tls : s'.tls = s.tls
  grown : Grown s.heap s'.heap
  owns : ∀ (t : Nat) (c c' : Cell Pointee), s.heap[t]? = some c → s'.heap[t]? = some c' → 0 < c'.strong → c'.owns = c.owns

namespace Beside

theorem same (hlive : s'.live = s.live) (htls : s'.tls = s.tls) (hheap : s'.heap = s.heap) : Beside s s' := by
  refine ⟨hlive, htls, hheap ▸ Grown.refl _, fun t c c' hc hc' _ => ?_⟩
  rw [hheap] at hc'
  cases hc.symm.trans hc'
  rfl

theorem hold (s : Common) (c : SiteCache) : Beside s (s.hold c) := by
  refine ⟨rfl, rfl, Grown.alloc _ _ _, fun t d d' hd hd' _ => ?_⟩
  have hlt : t < s.heap.length := (List.getElem?_eq_some_iff.1 hd).1
  rcases Pinned.alloc_cells (s := s) hd' with ⟨rfl, -⟩ | hold
  · exact absurd hlt (lt_irrefl _)
  · cases hd.symm.trans hold
    rfl

theorem clone (s : Common) (i : Nat) : Beside s { s with heap := s.heap.clone i } := by
  refine ⟨rfl, rfl, Grown.update _ _ fun _ => rfl, fun t c c' hc hc' _ => ?_⟩
  simp only at hc'
  cases hi : s.heap[i]? with
  | none =>
    rw [Heap.clone, Heap.update, hi, Option.elim_none, hc] at hc'
    cases hc'
    rfl
  | some d =>
    rw [Heap.clone, Heap.update_of_get hi, Heap.get_set hi] at hc'
    split at hc'
    · rename_i ht
      subst ht
      cases hc.symm.trans hi
      cases hc'
      rfl
    · cases hc.symm.trans hc'
      rfl

theorem free {r : Heap Pointee × List Pointee} (hd : Heap.Dropped s.heap r.1 r.2) : Beside s (s.free sticks r) := by
  refine ⟨rfl, rfl, Grown.dropped hd, fun t c c' hc hc' hpos => ?_⟩
  obtain ⟨d, hd', -, -, howns⟩ := hd.kept t c hc
  cases hd'.symm.trans hc'
  exact howns hpos

/-- What was live is, and reads the same. -/
theorem serving {v : Option Runtime} (hb : Beside s s') {extra : Nat → Nat} {ws' : Multiset Worker}
    (hp : Pinned dirs sticks base extra s ws) (hp' : Pinned dirs sticks base 0 s' ws') (hs : LiveIs v s) : LiveIs v s' := by
  cases v with
  | none => exact hb.live.trans hs
  | some rt =>
    obtain ⟨t, hl, ht, htls⟩ := hs
    obtain ⟨c, -, hc, -, -⟩ := hp.live_table hl
    obtain ⟨c', -, hc', -, hpos⟩ := hp'.live_table (hb.live.trans hl)
    obtain ⟨d, hd, hv⟩ := hb.grown t c hc
    cases hd.symm.trans hc'
    exact ⟨t, hb.live.trans hl, (hp.tableAt_kept hb.grown hc hc' hv (hb.owns t c c' hc hc' hpos)).trans ht, hb.tls.trans htls⟩

end Beside

theorem Pinned.built_kept {extra : Nat → Nat} (hp : Pinned dirs sticks base extra s ws) (hg : Grown s.heap s'.heap) :
    s.built.map (cacheAt s'.heap) = s.built.map (cacheAt s.heap) :=
  List.map_congr_left fun i hi => cacheAt_grown (hp.built i hi) hg

/-- What a worker does leaves all that `watch` holds, and the live runtime. -/
theorem Works.beside {ts ts' : List Worker} (hp : Pinned dirs sticks base 0 s (ts + ws)) (h : Works sticks s ts s' ts') :
    Beside s s' ∧ s'.seq = s.seq ∧ s'.wip = s.wip ∧ s'.built = s.built := by
  cases h with
  | accept hl => exact ⟨.clone _ _, rfl, rfl, rfl⟩
  | request hc hv ht hs hi hk => exact ⟨.clone _ _, rfl, rfl, rfl⟩
  | @respond conn i seen host =>
    have hbooks : s.heap.Books Pointee.rank fun k => (if k = i then 1 else 0) + (heldBy ({.idle conn} + ws) k + s.mine k) := by
      refine hp.books.congr fun k => ?_
      have hcoe : (([.busy conn i seen host] : List Worker) : Multiset Worker) = {.busy conn i seen host} := rfl
      simp only [hcoe, heldBy_add, Worker.holds, Pi.zero_apply]
      omega
    exact ⟨.free (Heap.drop_spec hbooks fun c _ => Pinned.rank_lt_two c).2, rfl, rfl, rfl⟩
  | @close conn =>
    have hbooks : s.heap.Books Pointee.rank fun k => (if k = conn.table then 1 else 0) + (heldBy ws k + s.mine k) := by
      refine hp.books.congr fun k => ?_
      have hcoe : (([.idle conn] : List Worker) : Multiset Worker) = {.idle conn} := rfl
      simp only [hcoe, heldBy_add, Worker.holds, Pi.zero_apply]
      omega
    exact ⟨.free (Heap.drop_spec hbooks fun c _ => Pinned.rank_lt_two c).2, rfl, rfl, rfl⟩

/-! ## Stages -/

/-- Where `watch` stands: the next build number, the build under way, the caches it has built, and what is live. -/
structure Stage (dirs : Path → Prop) (sticks : Path → Bool) (base : Disk) (live : Option Runtime) (seq : Nat)
    (wip : Option Build) (caches : List SiteCache) (v : Option Runtime) (p : Process) : Prop where
  pinned : Pinned dirs sticks base 0 p.shared p.threads
  seq : p.shared.seq = seq
  wip : p.shared.wip = wip
  built : p.shared.built.map (cacheAt p.shared.heap) = caches
  shown : v = live
  serving : LiveIs v p.shared

namespace Stage

variable {live : Option Runtime} {seq : Nat} {wip : Option Build} {caches : List SiteCache}

theorem start (base : Disk) : Stage dirs sticks base none 0 none [] none ⟨.start base, []⟩ :=
  ⟨Pinned.start base, rfl, rfl, rfl, rfl, rfl⟩

theorem stable (hu : Unnested dirs) : (arena dirs sticks).Stable (Stage dirs sticks base live seq wip caches) := by
  refine ⟨fun v p hs => hs.serving, fun v p p' hs hturn => ?_⟩
  cases hturn with
  | @mk s s' ts ts' before after h =>
    have hperm : ∀ l : List Worker, ((before ++ l ++ after : List Worker) : Multiset Worker) = l + (before + after : Multiset Worker) := by
      intro l
      simp only [← Multiset.coe_add]
      rw [add_comm (before : Multiset Worker), add_assoc]
    have hp := hs.pinned
    simp only [hperm] at hp
    have hp' := Pinned.works hu h hp
    obtain ⟨hb, hseq, hwip, hbuilt⟩ := Works.beside hp h
    refine ⟨by simp only [hperm]; exact hp', hseq.trans hs.seq, hwip.trans hs.wip, ?_, hs.shown, hb.serving hp hp' hs.serving⟩
    simp only [hbuilt]
    exact (hp.built_kept hb.grown).trans hs.built

/-- An access of `watch` that leaves the live runtime as it is. -/
theorem access (hu : Unnested dirs) {seq' : Nat} {wip' : Option Build} {caches' : List SiteCache} (next : Common → Common)
    (h : ∀ v p, Stage dirs sticks base live seq wip caches v p → Watches dirs sticks p.shared (next p.shared) ∧
      Beside p.shared (next p.shared) ∧ (next p.shared).seq = seq' ∧ (next p.shared).wip = wip' ∧
      (next p.shared).built.map (cacheAt (next p.shared).heap) = caches') :
    (arena dirs sticks).Moves (Stage dirs sticks base live seq wip caches) (Stage dirs sticks base live seq' wip' caches') := by
  refine .step (stable hu) fun v p hs => ?_
  obtain ⟨hw, hb, hseq, hwip, hbuilt⟩ := h v p hs
  have hp' := hs.pinned.watches hu hw
  exact ⟨⟨next p.shared, p.threads⟩, ⟨_, hw, rfl⟩, hp', hseq, hwip, hbuilt, hs.shown, hb.serving hs.pinned hp' hs.serving⟩

theorem create (hu : Unnested dirs) {policy : Policy} (hd : dirs policy.diskCache) :
    (arena dirs sticks).Moves (Stage dirs sticks base live seq none caches)
      (Stage dirs sticks base live (seq + 1) (some ⟨policy, seq, ∅⟩) caches) := by
  refine access hu (fun s => { s with seq := s.seq + 1, wip := some ⟨policy, s.seq, ∅⟩ }) fun _ _ hs =>
    ⟨.create hd hs.wip, .same rfl rfl rfl, ?_, ?_, hs.built⟩
  · rw [hs.seq]
  · rw [hs.seq]

theorem refuse (hu : Unnested dirs) :
    (arena dirs sticks).Moves (Stage dirs sticks base live seq wip caches) (Stage dirs sticks base live (seq + 1) wip caches) := by
  refine access hu (fun s => { s with seq := s.seq + 1 }) fun _ _ hs =>
    ⟨.refuse _, .same rfl rfl rfl, ?_, hs.wip, hs.built⟩
  rw [hs.seq]

theorem write (hu : Unnested dirs) {b : Build} {path : Path} (content : Bytes) (hin : Inside b.dir.path path) :
    (arena dirs sticks).Moves (Stage dirs sticks base live seq (some b) caches)
      (Stage dirs sticks base live seq (some { b with files := b.files.insert path content }) caches) :=
  access hu (fun s => { s with
    disk := Function.update s.disk path (some content), wip := some { b with files := b.files.insert path content } })
    fun _ _ hs => ⟨.write content hs.wip hin, .same rfl rfl rfl, hs.seq, rfl, hs.built⟩

theorem abort (hu : Unnested dirs) {b : Build} :
    (arena dirs sticks).Moves (Stage dirs sticks base live seq (some b) caches) (Stage dirs sticks base live seq none caches) :=
  access hu (fun s => { s with disk := b.dir.drop sticks s.disk, wip := none })
    fun _ _ hs => ⟨.abort hs.wip, .same rfl rfl rfl, hs.seq, rfl, hs.built⟩

theorem built_hold {extra : Nat → Nat} (hp : Pinned dirs sticks base extra s ws) (c : SiteCache) :
    (s.hold c).built.map (cacheAt (s.hold c).heap) = s.built.map (cacheAt s.heap) ++ [c] := by
  have hnew : (s.heap.alloc (.cache c) [])[s.heap.length]? = some ⟨.cache c, 1, []⟩ := (Heap.get_alloc _ _ _).trans (if_pos rfl)
  rw [Common.hold, List.map_append, List.map_singleton, cacheAt_of_get hnew rfl]
  have hg : Grown s.heap (s.hold c).heap := (Beside.hold s c).grown
  exact congrArg (· ++ [c]) (hp.built_kept hg)

theorem load (hu : Unnested dirs) {c : SiteCache} (hc : c = .empty ∨ ∃ env p seq root total total' seq',
    p.storage = .memory ∧ buildCache env p seq root total = (some (c, total'), seq')) :
    (arena dirs sticks).Moves (Stage dirs sticks base live seq wip caches) (Stage dirs sticks base live seq wip (caches ++ [c])) := by
  refine access hu (fun s => s.hold c) fun _ _ hs => ⟨.load hc, .hold _ c, hs.seq, hs.wip, ?_⟩
  rw [built_hold hs.pinned, hs.built]

theorem finish (hu : Unnested dirs) {b : Build} {c : SiteCache} {env : BuildEnv} {root : Node} {total total' seq' : Nat}
    (hp : b.policy.storage = .disk) (hroot : Slashless root)
    (hc : buildCache env b.policy b.number root total = (some (c, total'), seq'))
    (hf : ∀ bd, c.buildDir = some bd → ∀ path content, bd.files.lookup path = some content →
      b.files.lookup path = some content) :
    (arena dirs sticks).Moves (Stage dirs sticks base live seq (some b) caches)
      (Stage dirs sticks base live seq none (caches ++ [c])) := by
  refine access hu (fun s => { s.hold c with wip := none }) fun _ _ hs =>
    ⟨.finish hs.wip hp hroot hc hf, ⟨rfl, rfl, (Beside.hold _ c).grown, (Beside.hold _ c).owns⟩, hs.seq, rfl, ?_⟩
  rw [← hs.built]
  exact built_hold hs.pinned c

/-- All that is recorded of a build is written. -/
theorem writes (hu : Unnested dirs) : ∀ (l : List (Path × Bytes)) (b : Build),
    (∀ f ∈ l, Inside b.dir.path f.1) → (l.map Prod.fst).Nodup →
    (arena dirs sticks).Moves (Stage dirs sticks base live seq (some b) caches)
      fun v p => ∃ b', b'.policy = b.policy ∧ b'.number = b.number ∧ (∀ f ∈ l, b'.files.lookup f.1 = some f.2) ∧
        (∀ path, path ∉ l.map Prod.fst → b'.files.lookup path = b.files.lookup path) ∧
        Stage dirs sticks base live seq (some b') caches v p
  | [], b, _, _ => .imp fun _ _ hs => ⟨b, rfl, rfl, nofun, fun _ _ => rfl, hs⟩
  | (path, content) :: l, b, hin, hn => by
    rw [List.map_cons, List.nodup_cons] at hn
    refine .trans (write hu content (hin _ List.mem_cons_self)) ?_
    refine .trans (writes hu l { b with files := b.files.insert path content }
      (fun f hf => hin f (List.mem_cons_of_mem _ hf)) hn.2) (.imp ?_)
    rintro v p ⟨b', hpol, hnum, hall, hother, hs⟩
    refine ⟨b', hpol, hnum, fun f hf => ?_, fun q hq => ?_, hs⟩
    · rcases List.mem_cons.1 hf with rfl | hf
      · rw [hother _ hn.1]
        exact AList.lookup_insert _
      · exact hall f hf
    · rw [List.map_cons, List.mem_cons, not_or] at hq
      rw [hother q hq.2]
      exact AList.lookup_insert_ne hq.1

end Stage

/-! ## Caches that go into a table -/

/-- The elements of a list at some places. -/
def picks {α : Type} (l : List α) (places : List Nat) : List α := places.filterMap (l[·]?)

theorem picks_range {α : Type} (l : List α) : picks l (List.range l.length) = l := by
  unfold picks
  induction l using List.reverseRecOn with
  | nil => rfl
  | append_singleton l a ih =>
    rw [List.length_append, List.length_singleton, List.range_succ, List.filterMap_append]
    have hold : (List.range l.length).filterMap ((l ++ [a])[·]?) = (List.range l.length).filterMap (l[·]?) :=
      List.filterMap_congr fun i hi => List.getElem?_append_left (List.mem_range.1 hi)
    rw [hold, ih]
    simp

theorem picks_map {α β : Type} (f : α → β) (l : List α) (places : List Nat) : (picks l places).map f = picks (l.map f) places := by
  simp only [picks, List.map_filterMap, List.getElem?_map]

/-- Distinct places take their elements apart from the rest. -/
theorem perm_picks {α : Type} (l : List α) {places : List Nat} (hn : places.Nodup) (hlt : ∀ i ∈ places, i < l.length) :
    l.Perm (picks l ((List.range l.length).filter fun i => i ∉ places) ++ picks l places) := by
  have hsame : ((List.range l.length).filter fun i => i ∈ places).Perm places := by
    refine (List.perm_ext_iff_of_nodup (List.nodup_range.filter _) hn).2 fun i => ?_
    rw [List.mem_filter, List.mem_range, decide_eq_true_eq]
    exact ⟨fun h => h.2, fun h => ⟨hlt i h, h⟩⟩
  have hparts : (List.range l.length).Perm (((List.range l.length).filter fun i => i ∉ places) ++ places) := by
    refine (List.filter_append_perm (fun i => decide (i ∉ places)) (List.range l.length)).symm.trans (List.Perm.append_left _ ?_)
    simpa only [decide_not, Bool.not_not] using hsame
  have hall := hparts.filterMap (l[·]?)
  rw [List.filterMap_append] at hall
  exact (List.Perm.of_eq (picks_range l).symm).trans hall

/-- These caches are those of a table's sites, one for each. -/
structure Fits (v : Vhosts) (caches : List SiteCache) : Prop where
  length : caches.length = v.ids.length
  cache : ∀ host site, v.sites.lookup host = some site → caches[v.slot site.id]? = some site.cache

theorem Fits.reading {v : Vhosts} {h : Heap Pointee} {owns : List Nat} (hf : Fits v (owns.map (cacheAt h))) :
    v.reading (cacheIn h v owns) = v := by
  have hsites : (v.sites.mapVal fun s => { s with cache := cacheIn h v owns s.id }) = v.sites := by
    refine Map.mapVal_same fun host site hs => ?_
    have hcache := hf.cache host site hs
    rw [List.getElem?_map, Option.map_eq_some_iff] at hcache
    obtain ⟨i, hi, hsame⟩ := hcache
    rw [cacheIn, hi, Option.elim_some, hsame]
  rw [Vhosts.reading, hsites]

namespace Stage

variable {live : Option Runtime} {seq : Nat} {wip : Option Build} {caches : List SiteCache}

/-- Built caches go, but for those at some places. -/
theorem discard (hu : Unnested dirs) {places : List Nat} (hn : places.Nodup) (hlt : ∀ i ∈ places, i < caches.length) :
    (arena dirs sticks).Moves (Stage dirs sticks base live seq wip caches)
      (Stage dirs sticks base live seq wip (picks caches places)) := by
  refine .step (stable hu) fun v p hs => ?_
  have hplaces : ∀ i ∈ places, i < p.shared.built.length := by
    intro i hi
    have := hlt i hi
    rwa [← hs.built, List.length_map] at this
  have hperm := perm_picks p.shared.built hn hplaces
  have hreleased := hs.pinned.release hperm
  have hp' := Pinned.dropAll hu hreleased
  have hd := (Heap.dropAll_spec hreleased.books fun _ _ c _ => Pinned.rank_lt_two c).2
  refine ⟨⟨_, p.threads⟩, ⟨_, .discard hperm, rfl⟩, hp', hs.seq, hs.wip, ?_, hs.shown, ?_⟩
  · rw [← hs.built, ← picks_map]
    exact hreleased.built_kept (Grown.dropped hd)
  · have hsame : LiveIs v { p.shared with built := picks p.shared.built places } := by
      cases v with
      | none => exact hs.serving
      | some rt => exact hs.serving
    exact Beside.serving (.free hd) hreleased hp' hsame

/-- The first runtime goes live. -/
theorem boot (hu : Unnested dirs) {rt : Runtime} (hf : Fits rt.vhosts caches) :
    (arena dirs sticks).Turns (some rt) (Stage dirs sticks base none seq none caches)
      (Stage dirs sticks base (some rt) seq none [] (some rt)) := by
  refine .step (stable hu) fun v p hs => ?_
  obtain rfl := hs.shown
  rw [← hs.built] at hf
  have hlen : p.shared.built.length = rt.vhosts.ids.length := by simpa using hf.length
  have hinstalled := (hs.pinned.install rt.tls (List.Perm.refl _) hlen hf.reading).2
  have hlive : p.shared.live = none := hs.serving
  rw [hlive] at hinstalled
  refine ⟨⟨_, p.threads⟩, ⟨_, .boot rt.tls hlive (List.Perm.refl _) hlen hf.reading, rfl⟩, hinstalled, hs.seq, hs.wip, rfl,
    rfl, _, rfl, hs.pinned.install_reads (List.Perm.refl _) hf.reading, rfl⟩

/-- Another runtime takes the place of the live one. -/
theorem reload (hu : Unnested dirs) {rt rt' : Runtime} (hf : Fits rt'.vhosts caches) :
    (arena dirs sticks).Turns (some rt') (Stage dirs sticks base (some rt) seq none caches)
      (Stage dirs sticks base (some rt') seq none [] (some rt')) := by
  refine .step (stable hu) fun v p hs => ?_
  obtain rfl := hs.shown
  rw [← hs.built] at hf
  have hlen : p.shared.built.length = rt'.vhosts.ids.length := by simpa using hf.length
  obtain ⟨t, hlive, -, -⟩ := hs.serving
  have hinstalled := (hs.pinned.install rt'.tls (List.Perm.refl _) hlen hf.reading).2
  rw [hlive] at hinstalled
  simp only [Option.toList_some, Pinned.count_one] at hinstalled
  have hp' := Pinned.drop hu hinstalled
  have hd := (Heap.drop_spec hinstalled.books fun c _ => Pinned.rank_lt_two c).2
  have hserving : LiveIs (some rt') (p.shared.install rt'.vhosts p.shared.built rt'.tls).publish :=
    ⟨_, rfl, hs.pinned.install_reads (List.Perm.refl _) hf.reading, rfl⟩
  exact ⟨⟨_, p.threads⟩, ⟨_, .reload rt'.tls hlive (List.Perm.refl _) hlen hf.reading, rfl⟩, hp', hs.seq, hs.wip, rfl, rfl,
    Beside.serving (.free hd) hinstalled hp' hserving⟩

/-- New certificates over the live table. -/
theorem renew (hu : Unnested dirs) {rt : Runtime} (tls : ServerConfig) :
    (arena dirs sticks).Turns (some ⟨rt.vhosts, tls⟩) (Stage dirs sticks base (some rt) seq none caches)
      (Stage dirs sticks base (some ⟨rt.vhosts, tls⟩) seq none caches (some ⟨rt.vhosts, tls⟩)) := by
  refine .step (stable hu) fun v p hs => ?_
  obtain rfl := hs.shown
  obtain ⟨t, hlive, htab, -⟩ := hs.serving
  obtain ⟨ver, -, -, hp'⟩ := hs.pinned.renew tls hlive
  exact ⟨⟨_, p.threads⟩, ⟨_, .renew tls hlive, rfl⟩, hp', hs.seq, hs.wip, hs.built, rfl, t, hlive, htab, rfl⟩

/-! ## A rebuilt site -/

theorem ids_reading (v : Vhosts) (caches : Nat → SiteCache) : (v.reading caches).ids = v.ids := by
  simp only [Vhosts.ids, Vhosts.reading, Map.values_mapVal, List.map_map, Function.comp_def]

/-- The live table after a handle in it was replaced. -/
theorem swap_reads {extra : Nat → Nat} {t j : Nat} {d : Cell Pointee} {v : Vhosts} {id : Nat}
    (hp : Pinned dirs sticks base extra s ws) (hd : s.heap[t]? = some d) (hv : d.value = .table v)
    (hlen : d.owns.length = v.ids.length) (hid : id ∈ v.ids) (hj : IsCache s.heap j) :
    tableAt (s.heap.replace t (v.slot id) j) t = some { v.reading (cacheIn s.heap v d.owns) with
      sites := (v.reading (cacheIn s.heap v d.owns)).sites.setCache id (cacheAt s.heap j) } := by
  have hg : Grown s.heap (s.heap.replace t (v.slot id) j) := Grown.update _ _ fun _ => rfl
  have hnew : (s.heap.replace t (v.slot id) j)[t]? = some { d with owns := d.owns.set (v.slot id) j } := by
    rw [Heap.replace, Heap.update_of_get hd, Heap.get_set hd, if_pos rfl]
  have hslot : v.slot id < d.owns.length := hlen ▸ List.idxOf_lt_length_of_mem hid
  rw [tableAt_of_get hnew hv]
  simp only [Vhosts.reading, Sites.setCache, Map.mapVal_mapVal]
  refine congrArg some (congrArg (fun sites => { v with sites }) (Map.mapVal_congr fun host site hs => ?_))
  have hmem : site.id ∈ v.ids := List.mem_dedup.2 (List.mem_map_of_mem (Map.mem_values.2 ⟨host, hs⟩))
  by_cases heq : site.id = id
  · rw [heq, if_pos (by simp), cacheIn, List.getElem?_set_self hslot, Option.elim_some, cacheAt_grown hj hg]
  · -- other sites stand at other places
    have hne : v.slot id ≠ v.slot site.id := fun h => heq (List.idxOf_inj hmem |>.1 h.symm)
    rw [if_neg (by simpa using heq), cacheIn, List.getElem?_set_ne hne]
    refine congrArg (fun cache => { site with cache }) ?_
    cases hi : d.owns[v.slot site.id]? with
    | none =>
      rw [cacheIn, hi]
      rfl
    | some i =>
      rw [cacheIn, hi, Option.elim_some, Option.elim_some]
      exact cacheAt_grown (hp.owned_cache hd (List.mem_of_getElem? hi)) hg

/-- A rebuilt cache takes the place of one site's. -/
theorem swap (hu : Unnested dirs) {rt : Runtime} {c : SiteCache} {id : Nat} (hid : id ∈ rt.vhosts.ids) :
    (arena dirs sticks).Turns (some { rt with vhosts := { rt.vhosts with sites := rt.vhosts.sites.setCache id c } })
      (Stage dirs sticks base (some rt) seq none [c])
      (Stage dirs sticks base (some { rt with vhosts := { rt.vhosts with sites := rt.vhosts.sites.setCache id c } }) seq none []
        (some { rt with vhosts := { rt.vhosts with sites := rt.vhosts.sites.setCache id c } })) := by
  refine .step (stable hu) fun v p hs => ?_
  obtain rfl := hs.shown
  obtain ⟨t, hlive, htab, htls⟩ := hs.serving
  obtain ⟨d, v, hd, hv, hpos⟩ := hs.pinned.live_table hlive
  obtain ⟨j, hbuilt, hj⟩ := List.map_eq_singleton_iff.1 hs.built
  have hcache : IsCache p.shared.heap j := hs.pinned.built j (hbuilt ▸ List.mem_singleton_self j)
  rw [tableAt_of_get hd hv] at htab
  have hread : v.reading (cacheIn p.shared.heap v d.owns) = rt.vhosts := Option.some.inj htab
  rw [← hread, ids_reading] at hid
  have hlen := hs.pinned.slots t d v hd hv hpos
  have hslot : v.slot id < d.owns.length := hlen ▸ List.idxOf_lt_length_of_mem hid
  have hreads := swap_reads hs.pinned hd hv hlen hid hcache
  rw [hread, hj] at hreads
  obtain ⟨ver, -, -, -, hswapped⟩ := hs.pinned.swap hlive hbuilt hd (List.getElem?_eq_getElem hslot)
  have hp' := Pinned.drop hu hswapped
  have hdropped := (Heap.drop_spec hswapped.books fun c _ => Pinned.rank_lt_two c).2
  refine ⟨⟨_, p.threads⟩, ⟨_, .swap hlive hbuilt hd (List.getElem?_eq_getElem hslot), rfl⟩, hp', hs.seq, hs.wip, rfl, rfl, ?_⟩
  exact Beside.serving (.free hdropped) hswapped hp' ⟨t, hlive, hreads, htls⟩

end Stage
end BareServer
