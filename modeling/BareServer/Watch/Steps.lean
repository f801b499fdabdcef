/-
What one program of the watcher can do, said once: every arm of a tick is a rule whose premises are
the ways it ends. The invariants of the watcher are proved from these rules.
-/
import BareServer.Config.ParseSpec
import BareServer.Watch.Targets

namespace BareServer

open BareServer.Lib

variable {h : Nat → World} {I : Nat → Publication → Prop} {i : Nat} {c : Crates}

/-! ## Reads publish nothing -/

section

variable {E : Type}

/-- The combined signature of some files is that of what each of them was at a moment of its own. -/
theorem tlsSignatureOf_silent (paths : List Str) (i : Nat) :
    Obs.Holds h (fun _ _ => False) (tlsSignatureOf paths : Look E _) i fun sig j => ∃ infos, sig = tlsSignature infos ∧
      List.Forall₂ (fun p info => ∃ k, i ≤ k ∧ k < j ∧ info = (h k).info p) paths infos := by
  unfold tlsSignatureOf
  refine (Obs.holds_each (P := fun p info j => ∃ k, i ≤ k ∧ k < j ∧ info = (h k).info p) ?_ fun p _ j hij => ?_).bind
    fun infos j hinfos => ?_
  · rintro p info j k ⟨l, hil, hlj, hl⟩ hjk
    exact ⟨l, hil, by omega, hl⟩
  · rw [Obs.holds_view]
    exact ⟨j, hij, Nat.lt_succ_self j, rfl⟩
  · rw [Obs.holds_pure]
    exact ⟨infos, rfl, hinfos⟩

theorem rootLinks_silent (cfg : Config) (i : Nat) :
    Obs.Holds h (fun _ _ => False) (rootLinks cfg : Look E _) i fun _ _ => True := by
  unfold rootLinks resolveRoot
  refine (Obs.holds_each (P := fun _ _ _ => True) (fun _ _ _ _ _ _ => trivial) fun r _ j _ => ?_).post fun _ _ _ => trivial
  rw [Obs.holds_bind, Obs.holds_view, Obs.holds_pure]
  trivial

theorem rootLinksOf_silent (path : Str) (i : Nat) :
    Obs.Holds h (fun _ _ => False) (rootLinksOf path : Look E _) i fun _ _ => True := by
  unfold rootLinksOf loadConfig
  rw [Obs.holds_bind, Obs.holds_view]
  split
  · rw [Obs.holds_pure]; trivial
  · refine (rootLinks_silent _ _).bind fun _ _ _ => ?_
    rw [Obs.holds_pure]; trivial

theorem hashTree_silent (sigs : Map Str UInt64) (root : Path) (i : Nat) :
    Obs.Holds h (fun _ _ => False) (hashTree sigs root : Look E _) i fun sigs' j =>
      (sigs.lookup (display root)).isSome = true ∧ sigs' = sigs ∨
      sigs' = sigs.insert (display root) (treeSignature ((h i).node root)) ∧ i < j := by
  unfold hashTree treeSignatureOf
  split
  · rename_i hs
    rw [Obs.holds_pure]
    exact .inl ⟨hs, rfl⟩
  · rw [Obs.holds_bind, Obs.holds_view, Obs.holds_pure]
    exact .inr ⟨rfl, Nat.lt_succ_self i⟩

/-- Between two moments some roots were hashed, each where it was found at a moment of its own. -/
structure Hashed (h : Nat → World) (i j : Nat) (roots : List (Nat → Path)) (sigs : Map Str UInt64) : Prop where
  read : ∀ key v, sigs.lookup key = some v → ∃ root ∈ roots, ∃ l s, i ≤ l ∧ l ≤ s ∧ s < j ∧ display (root l) = key ∧
    v = treeSignature ((h s).node (root l))
  all : ∀ root ∈ roots, ∃ l, i ≤ l ∧ l ≤ j ∧ (sigs.lookup (display (root l))).isSome

theorem Hashed.empty (h : Nat → World) (i : Nat) : Hashed h i i [] ∅ := by
  constructor <;> simp

theorem Hashed.later {roots : List (Nat → Path)} {sigs : Map Str UInt64} {j k : Nat} (hh : Hashed h i j roots sigs)
    (hjk : j ≤ k) : Hashed h i k roots sigs := by
  refine ⟨fun key v hv => ?_, fun u hu => ?_⟩
  · obtain ⟨u, hu, m, s, him, hms, hsl, hrest⟩ := hh.read key v hv
    exact ⟨u, hu, m, s, him, hms, by omega, hrest⟩
  · obtain ⟨m, him, hml, hm⟩ := hh.all u hu
    exact ⟨m, him, by omega, hm⟩

/-- One more root, found at `l` and hashed from `j` on, unless it was hashed before. -/
theorem Hashed.add {roots : List (Nat → Path)} {sigs sigs' : Map Str UInt64} {l j k : Nat}
    (hh : Hashed h i l roots sigs) (root : Nat → Path) (hil : i ≤ l) (hlj : l ≤ j) (hjk : j ≤ k)
    (hs : (sigs.lookup (display (root l))).isSome = true ∧ sigs' = sigs ∨
      sigs' = sigs.insert (display (root l)) (treeSignature ((h j).node (root l))) ∧ j < k) :
    Hashed h i k (roots ++ [root]) sigs' := by
  rcases hs with ⟨hsome, rfl⟩ | ⟨rfl, hlt⟩
  · have hk := hh.later (hlj.trans hjk)
    refine ⟨fun key v hv => ?_, fun u hu => ?_⟩
    · obtain ⟨u, hu, hrest⟩ := hk.read key v hv
      exact ⟨u, List.mem_append_left _ hu, hrest⟩
    · rcases List.mem_append.1 hu with hu | hu
      · exact hk.all u hu
      · rw [List.mem_singleton.1 hu]
        exact ⟨l, hil, by omega, hsome⟩
  · refine ⟨fun key v hv => ?_, fun u hu => ?_⟩
    · rw [Map.lookup_insert'] at hv
      split at hv
      · rename_i hkey
        exact ⟨root, by simp, l, j, hil, hlj, hlt, hkey.symm, (Option.some.inj hv).symm⟩
      · obtain ⟨u, hu, m, s, him, hms, hsl, hrest⟩ := hh.read key v hv
        exact ⟨u, List.mem_append_left _ hu, m, s, him, hms, by omega, hrest⟩
    · rcases List.mem_append.1 hu with hu | hu
      · obtain ⟨m, him, hml, hm⟩ := hh.all u hu
        refine ⟨m, him, by omega, ?_⟩
        rw [Map.lookup_insert']
        split
        · rfl
        · exact hm
      · refine ⟨l, hil, by omega, ?_⟩
        rw [List.mem_singleton.1 hu, Map.lookup_insert', if_pos rfl]
        rfl

/-- What a sample holds: the config's signature at its first moment, the files' and the roots' trees as they were
while it was taken. -/
theorem sample_silent (path : Str) (cfg : Config) (i : Nat) :
    Obs.Holds h (fun _ _ => False) (sample path cfg : Look E _) i fun s j =>
      s.config = fileSignature ((h i).info path) ∧
      (∃ infos, s.tls = tlsSignature infos ∧
        List.Forall₂ (fun p info => ∃ k, i ≤ k ∧ k < j ∧ info = (h k).info p) (tlsPaths cfg) infos) ∧
      Hashed h i j (cfg.roots.map fun r l => (h l).resolve r) s.trees := by
  unfold sample fileSignatureOf
  rw [Obs.holds_bind, Obs.holds_view]
  refine (tlsSignatureOf_silent _ _).moments.bind fun tls j hj => ?_
  refine Obs.Holds.bind (Q := fun trees k => j ≤ k ∧ Hashed h i k (cfg.roots.map fun r l => (h l).resolve r) trees) ?_ ?_
  · refine Obs.holds_fold_done (P := fun done trees k => j ≤ k ∧ Hashed h i k (done.map fun r l => (h l).resolve r) trees)
      ⟨le_rfl, ⟨by simp, by simp⟩⟩ ?_
    intro done r rest _ trees k hk hh
    unfold sampleTree resolveRoot
    rw [Obs.holds_bind, Obs.holds_view, List.map_append, List.map_singleton]
    exact (hashTree_silent trees _ (k + 1)).moments.post fun trees' l hl =>
      ⟨by omega, hh.2.add (fun l => (h l).resolve r) (by omega) (Nat.le_succ k) hl.2 hl.1⟩
  · intro trees k hk
    refine (rootLinks_silent _ _).moments.bind fun links l hl => ?_
    rw [Obs.holds_pure]
    obtain ⟨⟨infos, htls, hinfos⟩, hij⟩ := hj
    refine ⟨rfl, ⟨infos, htls, hinfos.imp fun p info hp => ?_⟩, hk.2.later hl.2⟩
    obtain ⟨m, him, hmj, hm⟩ := hp
    exact ⟨m, by omega, by omega, hm⟩

theorem preTree_silent (trees : Map Str UInt64) (root : Path) (i : Nat) :
    Obs.Holds h (fun _ _ => False) (preTree trees root) i fun _ _ => True := by
  unfold preTree treeSignatureOf
  split
  · rw [Obs.holds_pure]; trivial
  · rw [Obs.holds_view]; trivial

theorem seedTrees_silent (trees : Map Str UInt64) : ∀ (roots : List (Str × Path)) (maps : Map Str UInt64 × Map Str UInt64)
    (i : Nat), Obs.Holds h (fun _ _ => False) (seedTrees trees roots maps) i fun _ _ => True
  | [], _, _ => by rw [seedTrees, Obs.holds_pure]; trivial
  | (host, root) :: rest, (applied, last), i => by
    unfold seedTrees treeSignatureOf
    refine (preTree_silent trees root i).bind fun pre j _ => ?_
    rw [Obs.holds_bind, Obs.holds_view]
    exact seedTrees_silent trees rest _ _

/-- A pair whose key differs from the head's is in the tail. -/
theorem mem_tail_of_key {host host' : Str} {root root' : Path} {rest : List (Str × Path)}
    (hkey : siteKey host (display root) ≠ siteKey host' (display root')) (hmem : (host, root) ∈ (host', root') :: rest) :
    (host, root) ∈ rest := by
  rcases List.mem_cons.1 hmem with heq | htail
  · cases heq
    exact absurd rfl hkey
  · exact htail

/-- The signatures of a new table: for a root that was sampled the sampled one, and a fresh one beside it. -/
theorem seedTrees_lookup (trees : Map Str UInt64) (host : Str) {root : Path} (hroot : (0 : UInt8) ∉ root) :
    ∀ (roots : List (Str × Path)) (maps : Map Str UInt64 × Map Str UInt64) (i : Nat), (∀ hr ∈ roots, (0 : UInt8) ∉ hr.2) →
    Obs.Holds h (fun _ _ => False) (seedTrees trees roots maps) i fun maps' _ =>
      (∀ sig, trees.lookup (display root) = some sig →
        (host, root) ∈ roots ∨ maps.1.lookup (siteKey host (display root)) = some sig →
        maps'.1.lookup (siteKey host (display root)) = some sig) ∧
      ((host, root) ∈ roots ∨ (maps.2.lookup (siteKey host (display root))).isSome →
        (maps'.2.lookup (siteKey host (display root))).isSome)
  | [], _, _, _ => by
    rw [seedTrees, Obs.holds_pure]
    simp
  | (host', root') :: rest, (applied, last), i, hn => by
    have hkeys : siteKey host (display root) = siteKey host' (display root') → host = host' ∧ display root = display root' :=
      siteKey_inj (nul_notMem_display hroot) (nul_notMem_display (hn (host', root') List.mem_cons_self))
    unfold seedTrees treeSignatureOf
    refine Obs.Holds.bind (Q := fun pre _ => ∀ sig, trees.lookup (display root') = some sig → pre = sig) ?_ ?_
    · unfold preTree treeSignatureOf
      split
      · rename_i s hs
        rw [Obs.holds_pure, hs]
        intro sig hsig
        exact Option.some.inj hsig
      · rename_i hs
        rw [Obs.holds_view, hs]
        intro sig hsig
        cases hsig
    · intro pre j hpre
      rw [Obs.holds_bind, Obs.holds_view]
      have hrest := fun maps => seedTrees_lookup trees host hroot rest maps (j + 1) fun hr hmem =>
        hn hr (List.mem_cons_of_mem _ hmem)
      refine (hrest _).post fun maps' _ hmaps => ?_
      -- a later entry under the same key is of the same root
      by_cases hkey : siteKey host (display root) = siteKey host' (display root')
      · refine ⟨fun sig hsig _ => hmaps.1 sig hsig (.inr ?_), fun _ => hmaps.2 (.inr ?_)⟩
        · rw [hkey, AList.lookup_insert, hpre sig (by rw [← (hkeys hkey).2, hsig])]
        · rw [hkey, AList.lookup_insert]
          rfl
      · refine ⟨fun sig hsig hin => hmaps.1 sig hsig ?_, fun hin => hmaps.2 ?_⟩
        · rw [AList.lookup_insert_ne hkey]
          exact hin.imp_left (mem_tail_of_key hkey)
        · rw [AList.lookup_insert_ne hkey]
          exact hin.imp_left (mem_tail_of_key hkey)

/-- The boot's applied signatures: the sampled ones. -/
theorem seedBoot_lookup {trees : Map Str UInt64} (host : Str) {root : Path} {sig : UInt64} (hroot : (0 : UInt8) ∉ root)
    (hsig : trees.lookup (display root) = some sig) : ∀ (roots : List (Str × Path)) (applied : Map Str UInt64),
    (∀ hr ∈ roots, (0 : UInt8) ∉ hr.2) →
    (host, root) ∈ roots ∨ applied.lookup (siteKey host (display root)) = some sig →
    (seedBoot trees roots applied).lookup (siteKey host (display root)) = some sig
  | [], _, _, hin => by simpa [seedBoot] using hin
  | (host', root') :: rest, applied, hn, hin => by
    have hkeys : siteKey host (display root) = siteKey host' (display root') → host = host' ∧ display root = display root' :=
      siteKey_inj (nul_notMem_display hroot) (nul_notMem_display (hn (host', root') List.mem_cons_self))
    have hrest := fun applied' => seedBoot_lookup host hroot hsig rest applied' fun hr hmem =>
      hn hr (List.mem_cons_of_mem _ hmem)
    unfold seedBoot
    split
    · rename_i s hs
      refine hrest _ ?_
      by_cases hkey : siteKey host (display root) = siteKey host' (display root')
      · right
        rw [hkey, AList.lookup_insert, ← hs, ← (hkeys hkey).2, hsig]
      · rw [AList.lookup_insert_ne hkey]
        exact hin.imp_left (mem_tail_of_key hkey)
    · rename_i hs
      refine hrest _ (hin.imp_left fun hmem => ?_)
      rcases List.mem_cons.1 hmem with heq | hmem
      · cases heq
        rw [hs] at hsig
        cases hsig
      · exact hmem

/-- What a tick reads first is the config file's signature. -/
theorem readInputs_silent (w : Watcher) (i : Nat) :
    Obs.Holds h (fun _ _ => False) (readInputs w) i fun r _ => r.cfgNow = fileSignature ((h i).info w.configPath) := by
  unfold readInputs fileSignatureOf
  rw [Obs.holds_bind, Obs.holds_view]
  refine (tlsSignatureOf_silent _ _).bind fun tlsNow _ _ => ?_
  refine (rootLinksOf_silent _ _).bind fun _ _ _ => ?_
  split
  · rw [Obs.holds_pure]
  · rw [Obs.holds_bind, Obs.holds_view, Obs.holds_pure]

end

/-! ## Loading the config -/

theorem Loaded.ofText_text {text : Str} {l : Loaded} (hl : Loaded.ofText text = .ok l) : l.text = text := by
  unfold Loaded.ofText at hl
  split at hl
  · cases hl
  · cases hl; rfl

theorem World.load_text {w : World} {path : Str} {l : Loaded} (hl : w.load path = .ok l) : w.text path = .ok l.text := by
  unfold World.load at hl
  split at hl
  · cases hl
  · rename_i text ht
    rw [ht, Loaded.ofText_text hl]

@[simp] theorem holds_loadConfig {path : Str} {Q : Except Str Loaded → Nat → Prop} :
    Obs.Holds h I (loadConfig path) i Q ↔ Q ((h i).load path) (i + 1) := by
  rw [loadConfig, Obs.holds_view]

/-! ## The state that matters -/

/-- Two watchers that differ in their listeners and retries only. -/
structure SameCore (w w' : Watcher) : Prop where
  configPath : w'.configPath = w.configPath
  buildSeq : w'.buildSeq = w.buildSeq
  tlsFiles : w'.tlsFiles = w.tlsFiles
  cfgApplied : w'.cfgApplied = w.cfgApplied
  linksApplied : w'.linksApplied = w.linksApplied
  tlsApplied : w'.tlsApplied = w.tlsApplied
  treeApplied : w'.treeApplied = w.treeApplied
  treeLast : w'.treeLast = w.treeLast
  live : w'.live = w.live

theorem SameCore.refl (w : Watcher) : SameCore w w := ⟨rfl, rfl, rfl, rfl, rfl, rfl, rfl, rfl, rfl⟩

theorem SameCore.trans {a b d : Watcher} (hab : SameCore a b) (hbd : SameCore b d) : SameCore a d :=
  ⟨hbd.configPath.trans hab.configPath, hbd.buildSeq.trans hab.buildSeq, hbd.tlsFiles.trans hab.tlsFiles, hbd.cfgApplied.trans hab.cfgApplied,
    hbd.linksApplied.trans hab.linksApplied, hbd.tlsApplied.trans hab.tlsApplied,
    hbd.treeApplied.trans hab.treeApplied, hbd.treeLast.trans hab.treeLast, hbd.live.trans hab.live⟩

theorem resetBackoff_core (w : Watcher) (cfgNow tlsNow : UInt64) : SameCore w (resetBackoff w cfgNow tlsNow) := by
  unfold resetBackoff
  cases w.failedAt with
  | none => exact .refl w
  | some s =>
    simp only
    split
    · constructor <;> rfl
    · exact .refl w

theorem resetBackoff_last (w : Watcher) (cfgNow tlsNow : UInt64) :
    (resetBackoff w cfgNow tlsNow).cfgLast = w.cfgLast ∧ (resetBackoff w cfgNow tlsNow).tlsLast = w.tlsLast ∧
      (resetBackoff w cfgNow tlsNow).linksLast = w.linksLast := by
  unfold resetBackoff
  cases w.failedAt with
  | none => exact ⟨rfl, rfl, rfl⟩
  | some s =>
    simp only
    split <;> exact ⟨rfl, rfl, rfl⟩

theorem cfgChanged_resetBackoff (w : Watcher) (r : Readings) (a b : UInt64) :
    cfgChanged (resetBackoff w a b) r = cfgChanged w r := by
  obtain ⟨hc, -, hl⟩ := resetBackoff_last w a b
  have hcore := resetBackoff_core w a b
  simp only [cfgChanged, linksChanged, hc, hl, hcore.cfgApplied, hcore.linksApplied]

theorem tlsChanged_resetBackoff (w : Watcher) (r : Readings) (a b : UInt64) :
    tlsChanged (resetBackoff w a b) r = tlsChanged w r := by
  obtain ⟨-, ht, -⟩ := resetBackoff_last w a b
  have hcore := resetBackoff_core w a b
  simp only [tlsChanged, ht, hcore.tlsApplied]

/-! ## Listeners and retries -/

/-- What HTTPS is once it has been brought to an address. -/
def Watcher.httpsAt (w : Watcher) (addr : Str) : Watcher :=
  if w.https.addr = addr then w
  else { w with
    https := { w.https with addr, gen := w.loops.next }
    loops := (w.loops.retire w.https.gen).spawn addr }

/-- What plain HTTP is once it is as wanted. -/
def Watcher.httpAt (w : Watcher) (want : Option Str) : Watcher :=
  match w.http, want with
  | some ctl, some addr =>
    if ctl.addr = addr then w
    else { w with http := some { ctl with addr, gen := w.loops.next }, loops := (w.loops.retire ctl.gen).spawn addr }
  | some ctl, none => { w with http := none, loops := w.loops.retire ctl.gen }
  | none, some addr =>
    { w with http := some ⟨addr, w.loops.next, w.maxConnsPerIp, str "HTTP"⟩, loops := w.loops.spawn addr }
  | none, none => w

/-- HTTPS settles on an address between two moments: it is there, or its bind succeeds. -/
def HttpsSettles (h : Nat → World) (w : Watcher) (addr : Str) (i j : Nat) : Prop :=
  w.https.addr = addr ∧ j = i ∨ w.https.addr ≠ addr ∧ (h i).bind addr = .ok () ∧ j = i + 1

/-- Plain HTTP needs no bind, or the bind succeeds. -/
def HttpSettles (h : Nat → World) (w : Watcher) (want : Option Str) (j : Nat) : Prop :=
  ∀ addr, want = some addr → w.http.map (·.addr) = some addr ∨ (h j).bind addr = .ok ()

theorem rebind_holds {loops : Loops} {ctl : ListenerCtl} {addr : Str} {Q : Except Str (ListenerCtl × Loops) → Nat → Prop}
    (stay : ctl.addr = addr → Q (.ok (ctl, loops)) i)
    (fail : ∀ e, ctl.addr ≠ addr → (h i).bind addr ≠ .ok () → Q (.error e) (i + 1))
    (move : ctl.addr ≠ addr → (h i).bind addr = .ok () →
      Q (.ok ({ ctl with addr, gen := loops.next }, (loops.retire ctl.gen).spawn addr)) (i + 1)) :
    Obs.Holds h I (rebind loops ctl addr) i Q := by
  unfold rebind
  by_cases haddr : ctl.addr = addr
  · rw [if_pos (by simpa using haddr), Obs.holds_pure]
    exact stay haddr
  · rw [if_neg (by simpa using haddr), Obs.holds_bind, Obs.holds_view]
    cases hbind : (h i).bind addr with
    | error e =>
      rw [Obs.holds_pure]
      exact fail _ haddr (by simp [hbind])
    | ok u =>
      rw [Obs.holds_pure]
      exact move haddr hbind

theorem startListener_holds {loops : Loops} {addr : Str} {maxPerIp : Nat} {label : Str}
    {Q : Except Str (ListenerCtl × Loops) → Nat → Prop}
    (fail : ∀ e, (h i).bind addr ≠ .ok () → Q (.error e) (i + 1))
    (start : (h i).bind addr = .ok () → Q (.ok (⟨addr, loops.next, maxPerIp, label⟩, loops.spawn addr)) (i + 1)) :
    Obs.Holds h I (startListener loops addr maxPerIp label) i Q := by
  unfold startListener
  rw [Obs.holds_bind, Obs.holds_view]
  cases hbind : (h i).bind addr with
  | error e =>
    rw [Obs.holds_pure]
    exact fail _ (by simp [hbind])
  | ok u =>
    rw [Obs.holds_pure]
    exact start hbind

/-- Plain HTTP stays as it is when its bind fails, and is as wanted otherwise. -/
theorem reconcileHttp_holds {w : Watcher} {want : Option Str} {Q : Except Str Watcher → Nat → Prop}
    (fail : ∀ addr e, want = some addr → w.http.map (·.addr) ≠ some addr → (h i).bind addr ≠ .ok () → Q (.error e) (i + 1))
    (done : ∀ k, HttpSettles h w want i → i ≤ k → Q (.ok (w.httpAt want)) k) :
    Obs.Holds h I (reconcileHttp w want) i Q := by
  unfold reconcileHttp
  unfold Watcher.httpAt at done
  cases hctl : w.http with
  | some ctl =>
    cases want with
    | some addr =>
      simp only [hctl] at done ⊢
      refine Obs.Holds.bind (Q := fun x j => (∃ e, x = .error e ∧ ctl.addr ≠ addr ∧ (h i).bind addr ≠ .ok () ∧ j = i + 1) ∨
          (ctl.addr = addr ∧ x = .ok (ctl, w.loops) ∧ j = i) ∨ (ctl.addr ≠ addr ∧ (h i).bind addr = .ok () ∧
            x = .ok ({ ctl with addr, gen := w.loops.next }, (w.loops.retire ctl.gen).spawn addr) ∧ j = i + 1)) ?_ ?_
      · exact rebind_holds (fun ha => .inr (.inl ⟨ha, rfl, rfl⟩)) (fun e ha hb => .inl ⟨e, rfl, ha, hb, rfl⟩)
          fun ha hb => .inr (.inr ⟨ha, hb, rfl, rfl⟩)
      · rintro x j (⟨e, rfl, ha, hb, rfl⟩ | ⟨ha, rfl, rfl⟩ | ⟨ha, hb, rfl, rfl⟩)
        · rw [Obs.holds_pure]
          exact fail addr e rfl (by simpa [hctl] using ha) hb
        · have hsame : ({ w with http := some ctl, loops := w.loops } : Watcher) = w := by rw [← hctl]
          have hdone := done j (fun b hb => .inl (by rw [hctl, ← hb, ← ha]; rfl)) le_rfl
          rw [if_pos ha] at hdone
          simpa only [Obs.holds_pure, hsame] using hdone
        · have hdone := done (i + 1) (fun b hb' => .inr (by rw [← Option.some.inj hb']; exact hb)) (Nat.le_succ i)
          rw [if_neg ha] at hdone
          rw [Obs.holds_pure]
          exact hdone
    | none =>
      simp only [hctl] at done ⊢
      rw [Obs.holds_pure]
      exact done i (fun _ hb => by cases hb) le_rfl
  | none =>
    cases want with
    | some addr =>
      simp only [hctl] at done ⊢
      rw [Obs.holds_bind]
      refine startListener_holds (fun e hb => ?_) fun hb => ?_
      · rw [Obs.holds_pure]
        exact fail addr e rfl (by simp [hctl]) hb
      · rw [Obs.holds_pure]
        exact done (i + 1) (fun b hb' => .inr (by rw [← Option.some.inj hb']; exact hb)) (Nat.le_succ i)
    | none =>
      simp only [hctl] at done ⊢
      rw [Obs.holds_pure]
      exact done i (fun _ hb => by cases hb) le_rfl

theorem httpsAt_http (w : Watcher) (addr : Str) : (w.httpsAt addr).http = w.http := by
  unfold Watcher.httpsAt
  split <;> rfl

/-- A reconciliation: nothing is pending; or HTTPS fails to bind and nothing moves; or HTTPS is as wanted and plain
HTTP fails to bind; or both are as wanted and nothing is pending any more. -/
theorem reconcile_holds {a : Armed} {Q : Armed → Nat → Prop}
    (idle : a.watcher.pending = none → Q a i)
    (refused : ∀ x y e, a.watcher.pending = some (x, y) → a.watcher.https.addr ≠ x → (h i).bind x ≠ .ok () →
      Q { a with failure := a.failure.or (some e) } (i + 1))
    (halfway : ∀ x b e j, a.watcher.pending = some (x, some b) → HttpsSettles h a.watcher x i j →
      a.watcher.http.map (·.addr) ≠ some b → (h j).bind b ≠ .ok () →
      Q { a with watcher := a.watcher.httpsAt x, failure := a.failure.or (some e) } (j + 1))
    (done : ∀ x y j k, a.watcher.pending = some (x, y) → HttpsSettles h a.watcher x i j → HttpSettles h a.watcher y j →
      j ≤ k → Q { a with watcher := { (a.watcher.httpsAt x).httpAt y with pending := none } } k) :
    Obs.Holds h I (reconcile a) i Q := by
  unfold reconcile
  cases hp : a.watcher.pending with
  | none =>
    rw [Obs.holds_pure]
    exact idle hp
  | some xy =>
    obtain ⟨x, y⟩ := xy
    simp only
    -- the rest, once HTTPS is settled at `j`
    have hrest : ∀ j, HttpsSettles h a.watcher x i j → Obs.Holds h I (reconcileHttp (a.watcher.httpsAt x) y) j fun r k =>
        (∀ e, r = .error e → Q { a with watcher := a.watcher.httpsAt x, failure := a.failure.or (some e) } k) ∧
        ∀ w', r = .ok w' → Q { a with watcher := { w' with pending := none } } k := by
      intro j hj
      refine reconcileHttp_holds (fun b e hb hne hbind => ?_) fun k hs hjk => ?_
      · rw [httpsAt_http] at hne
        refine ⟨?_, fun _ hok => by cases hok⟩
        intro e' he
        cases he
        exact halfway x b e j (hb ▸ hp) hj hne hbind
      · refine ⟨fun _ herr => (by cases herr), ?_⟩
        intro w' hw
        cases hw
        refine done x y j k hp hj (fun b hb => ?_) hjk
        have := hs b hb
        rwa [httpsAt_http] at this
    rw [Obs.holds_bind]
    refine rebind_holds (fun ha => ?_) (fun e ha hb => ?_) fun ha hb => ?_
    · have := hrest i (.inl ⟨ha, rfl⟩)
      rw [Watcher.httpsAt, if_pos ha] at this
      refine this.bind ?_
      rintro (e | w') k ⟨herr, hok⟩
      · exact Obs.holds_pure.2 (herr e rfl)
      · exact Obs.holds_pure.2 (hok w' rfl)
    · rw [Obs.holds_pure]
      exact refused x y e hp ha hb
    · have := hrest (i + 1) (.inr ⟨ha, hb, rfl⟩)
      rw [Watcher.httpsAt, if_neg ha] at this
      refine this.bind ?_
      rintro (e | w') k ⟨herr, hok⟩
      · exact Obs.holds_pure.2 (herr e rfl)
      · exact Obs.holds_pure.2 (hok w' rfl)

theorem httpsAt_core (w : Watcher) (addr : Str) : SameCore w (w.httpsAt addr) := by
  unfold Watcher.httpsAt
  split
  · exact .refl w
  · constructor <;> rfl

theorem httpAt_core (w : Watcher) (want : Option Str) : SameCore w (w.httpAt want) := by
  unfold Watcher.httpAt
  split
  · split
    · exact .refl w
    · constructor <;> rfl
  · constructor <;> rfl
  · constructor <;> rfl
  · exact .refl w

theorem reconcile_core (a : Armed) (i : Nat) :
    Obs.Holds h (fun _ _ => False) (reconcile a) i fun b _ => SameCore a.watcher b.watcher ∧ b.tlsNow = a.tlsNow := by
  refine reconcile_holds (fun _ => ⟨.refl _, rfl⟩) (fun _ _ _ _ _ _ => ⟨.refl _, rfl⟩)
    (fun x _ _ _ _ _ _ _ => ⟨httpsAt_core _ x, rfl⟩) fun x y _ _ _ _ _ _ => ⟨?_, rfl⟩
  have hpending : SameCore ((a.watcher.httpsAt x).httpAt y) { (a.watcher.httpsAt x).httpAt y with pending := none } := by
    constructor <;> rfl
  exact ((httpsAt_core _ x).trans (httpAt_core _ y)).trans hpending

theorem settle_core (cfgNow : UInt64) (a : Armed) (i : Nat) :
    Obs.Holds h (fun _ _ => False) (settle cfgNow a) i fun b _ => SameCore a.watcher b.watcher ∧ b.tlsNow = a.tlsNow := by
  unfold settle
  split
  · rw [Obs.holds_pure]
    exact ⟨by constructor <;> rfl, rfl⟩
  · simp only [Obs.holds_bind, Obs.holds_view, Obs.holds_pure]
    exact ⟨by constructor <;> rfl, trivial⟩

/-! ## Decisions -/

/-- The inputs of a tick send it into the full-reload arm. -/
def takesReload (w : Watcher) (r : Readings) : Bool := r.due && cfgChanged w r

/-- The inputs of a tick send it into the certificate-only arm. -/
def takesCerts (w : Watcher) (r : Readings) : Bool := r.due && !cfgChanged w r && tlsChanged w r

/-- A tick's decision: after the arm it takes, only listeners and retries change. -/
theorem applyInputs_holds {w : Watcher} {r : Readings} {P : Watcher → UInt64 → Nat → Prop}
    (core : ∀ w1 w2 t j k, SameCore w1 w2 → j ≤ k → P w1 t j → P w2 t k)
    (full : takesReload w r = true → ∀ w0, SameCore w w0 →
      Obs.Holds h I (reload c w0 r.cfgNow r.tlsNow) i fun a j => P a.watcher a.tlsNow j)
    (certs : takesCerts w r = true → ∀ w0, SameCore w w0 →
      Obs.Holds h I (reloadTls c w0 r.tlsNow) i fun a j => P a.watcher a.tlsNow j)
    (idle : takesReload w r = false → takesCerts w r = false → P w r.tlsNow i) :
    Obs.Holds h I (applyInputs c w r) i fun a j => P a.watcher a.tlsNow j := by
  have hcore := resetBackoff_core w r.cfgNow r.tlsNow
  unfold applyInputs takeArm
  simp only [cfgChanged_resetBackoff, tlsChanged_resetBackoff]
  split
  · rename_i hdue
    have hdue : r.due = true := (Bool.and_eq_true_iff.1 hdue).1
    refine Obs.Holds.bind (Q := fun a j => P a.watcher a.tlsNow j) ?_ fun a j ha =>
      (reconcile_core a j).silent.moments.bind fun b k hb => (settle_core r.cfgNow b k).silent.moments.post fun d l hd => ?_
    · split
      · rename_i hcfg
        exact full (by simp [takesReload, hdue, hcfg]) _ hcore
      · rename_i hcfg
        split
        · rename_i htls
          exact certs (by simp [takesCerts, hdue, hcfg, htls]) _ hcore
        · rename_i htls
          rw [Obs.holds_pure]
          exact core _ _ _ _ _ hcore le_rfl (idle (by simp [takesReload, hcfg]) (by simp [takesCerts, htls]))
    · -- the listeners and the retry come after the arm and leave its core
      obtain ⟨⟨hb, hbt⟩, hjk⟩ := hb
      obtain ⟨⟨hd, hdt⟩, hkl⟩ := hd
      rw [hdt, hbt]
      exact core _ _ _ _ _ (hb.trans hd) (hjk.trans hkl) ha
  · rename_i hnot
    rw [Obs.holds_pure]
    refine core _ _ _ _ _ hcore le_rfl (idle ?_ ?_) <;> cases hd : r.due <;> simp_all [takesReload, takesCerts]

/-! ## The arms -/

/-- The full reload: it fails, or everything that goes live comes from one load, one sample and one build, in
that order. -/
theorem reload_holds {w : Watcher} {cfgNow tlsNow : UInt64} {Q : Armed → Nat → Prop}
    (fail : ∀ seq e k, i ≤ k → Q ⟨{ w with buildSeq := seq }, tlsNow, some e⟩ k)
    (ok : ∀ cfg s rt seq order applied last j k l, (h i).load w.configPath = .ok cfg →
      (sample w.configPath cfg.cfg : Watch Sampled).run h (i + 1) = ⟨s, j, []⟩ →
      (buildRuntime c cfg.cfg w.buildSeq : Watch _).run h j = ⟨(.ok rt, seq), k, []⟩ →
      (seedTrees s.trees (rooted (iter rt.vhosts.sites order)) (∅, ∅)).run h (k + 1) = ⟨(applied, last), l, []⟩ →
      i < j → j ≤ k → k < l →
      I l ⟨w.reloaded cfg s rt applied last cfgNow seq,
        .config cfg cfgNow :: .certs cfg s.tls :: installedTrees applied (scanTargets (iter rt.vhosts.sites order))⟩ ∧
      ∀ t m, l ≤ m → Q ⟨w.reloaded cfg s rt applied last cfgNow seq, t, none⟩ m) :
    Obs.Holds h I (reload c w cfgNow tlsNow) i Q := by
  unfold reload
  rw [Obs.holds_bind, holds_loadConfig]
  cases hload : (h i).load w.configPath with
  | error e =>
    rw [Obs.holds_pure]
    exact fail w.buildSeq e _ (Nat.le_succ i)
  | ok cfg =>
    refine (sample_silent w.configPath cfg.cfg (i + 1)).bind_run fun s j hs hij _ => ?_
    refine (buildRuntime_from w.buildSeq j).bind_run fun r k hr hjk _ => ?_
    obtain ⟨r, seq⟩ := r
    cases r with
    | error e =>
      rw [Obs.holds_pure]
      exact fail seq e k (by omega)
    | ok rt =>
      simp only
      rw [Obs.holds_bind, Obs.holds_view]
      refine (seedTrees_silent s.trees _ (∅, ∅) (k + 1)).bind_run fun maps l hl hkl _ => ?_
      obtain ⟨applied, last⟩ := maps
      obtain ⟨hI, hQ⟩ := ok cfg s rt seq _ applied last j k l hload hs hr hl (by omega) hjk (by omega)
      simp only
      rw [Obs.holds_bind, Obs.holds_publish]
      refine ⟨hI, ?_⟩
      refine (tlsSignatureOf_silent _ _).silent.moments.bind fun t m hm => ?_
      rw [Obs.holds_pure]
      exact hQ t m (by omega)

/-- The certificate-only arm: it fails, or the certificates of the config that is read now go live. -/
theorem reloadTls_holds {w : Watcher} {tlsNow : UInt64} {Q : Armed → Nat → Prop}
    (fail : ∀ e k, i ≤ k → Q ⟨w, tlsNow, some e⟩ k)
    (ok : ∀ cfg tls k, (h i).load w.configPath = .ok cfg →
      (buildTls c.rustls cfg.cfg : Watch _).run h (i + 1) = ⟨.ok tls, k, []⟩ → i ≤ k →
      I k ⟨w.renewed cfg tls tlsNow, [.certs cfg tlsNow]⟩ ∧ Q ⟨w.renewed cfg tls tlsNow, tlsNow, none⟩ (k + 1)) :
    Obs.Holds h I (reloadTls c w tlsNow) i Q := by
  unfold reloadTls
  rw [Obs.holds_bind, holds_loadConfig]
  cases hload : (h i).load w.configPath with
  | error e =>
    rw [Obs.holds_pure]
    exact fail e _ (Nat.le_succ i)
  | ok cfg =>
    refine (buildTls_names (i + 1)).bind_run fun r k hbuild hik _ => ?_
    cases r with
    | error e =>
      rw [Obs.holds_pure]
      exact fail e k (by omega)
    | ok tls =>
      obtain ⟨hI, hQ⟩ := ok cfg tls k hload hbuild (by omega)
      simp only
      rw [Obs.holds_bind, Obs.holds_publish, Obs.holds_pure]
      exact ⟨hI, hQ⟩

/-! ## The content scan -/

theorem hashTargets_silent (targets : List (Site × Path × Str)) :
    Obs.Holds h (fun _ _ => False) (Obs.fold (fun sigs t => hashTree sigs t.2.1) ∅ targets : Watch _) i
      fun sigs j => Hashed h i j (targets.map fun t _ => t.2.1) sigs := by
  refine (Obs.holds_fold_done (P := fun done sigs j => i ≤ j ∧ Hashed h i j (done.map fun t _ => t.2.1) sigs)
    ⟨le_rfl, .empty h i⟩ ?_).post fun sigs j hh => hh.2
  intro done t _ _ sigs j hij hh
  rw [List.map_append, List.map_singleton]
  exact (hashTree_silent sigs t.2.1 j).moments.post fun sigs' k hk =>
    ⟨by omega, hh.2.add (fun _ => t.2.1) hij le_rfl hk.2 hk.1⟩

/-- The signature the scan of a target reads. -/
def scanned (sigs : Map Str UInt64) (t : Site × Path × Str) : UInt64 := (sigs.lookup (display t.2.1)).getD 0

/-- What the scan reads of a target is the signature of a target's tree whose root has the same text. -/
theorem scanned_read {targets : List (Site × Path × Str)} {sigs : Map Str UInt64} {j : Nat}
    (hh : Hashed h i j (targets.map fun t _ => t.2.1) sigs) {t : Site × Path × Str} (ht : t ∈ targets) :
    ∃ u ∈ targets, ∃ s, i ≤ s ∧ s < j ∧ display u.2.1 = display t.2.1 ∧ scanned sigs t = treeSignature ((h s).node u.2.1) := by
  obtain ⟨l, -, -, hsome⟩ := hh.all (fun _ => t.2.1) (List.mem_map_of_mem ht)
  obtain ⟨v, hv⟩ := Option.isSome_iff_exists.1 hsome
  obtain ⟨f, hf, m, s, him, hms, hsj, hkey, rfl⟩ := hh.read _ v hv
  obtain ⟨u, hu, rfl⟩ := List.mem_map.1 hf
  refine ⟨u, hu, s, by omega, hsj, hkey, ?_⟩
  simp only at hv
  rw [scanned, hv]
  rfl

/-- One target: nothing but its last signature is recorded, or a cache built from its tree goes live with the
signature, which the tick before had read already. -/
theorem scanSite_holds {sigs : Map Str UInt64} {targets : List (Site × Path × Str)} {w : Watcher}
    {t : Site × Path × Str} {Q : Watcher → Nat → Prop}
    (skip : ∀ seq failed k, i ≤ k →
      Q { w with buildSeq := seq, treeFailed := failed, treeLast := w.treeLast.insert (targetKey t) (scanned sigs t) } k)
    (build : ∀ cache total seq, scanned sigs t = (w.treeLast.lookup (targetKey t)).getD (scanned sigs t) →
      buildCache ⟨c.compressors, (h i).mkdir, (h i).writes⟩ t.1.policy w.buildSeq ((h i).node t.2.1)
        (charged w targets t.1.id) = (some (cache, total), seq) →
      I (i + 1) ⟨w.rebuilt t.1.id cache (targetKey t) (scanned sigs t) seq, [.tree (targetKey t) (scanned sigs t)]⟩ ∧
      Q (w.rebuilt t.1.id cache (targetKey t) (scanned sigs t) seq) (i + 2)) :
    Obs.Holds h I (scanSite c sigs targets w t) i Q := by
  obtain ⟨site, root, host⟩ := t
  unfold scanSite
  simp only
  split
  · rename_i hnow
    rw [Obs.holds_bind, Obs.holds_view]
    split
    · rename_i cache total seq hb
      obtain ⟨hI, hQ⟩ := build cache total seq (by simp only [Bool.and_eq_true, decide_eq_true_eq] at hnow; exact hnow.2) hb
      rw [Obs.holds_bind, Obs.holds_publish, Obs.holds_pure]
      exact ⟨hI, hQ⟩
    · rw [Obs.holds_pure]
      exact skip _ _ _ (Nat.le_succ i)
  · rw [Obs.holds_pure]
    exact skip w.buildSeq w.treeFailed i le_rfl

/-- The scan: what every target keeps. -/
theorem scan_holds {w : Watcher} {P : List (Site × Path × Str) → Watcher → Nat → Prop} {Q : Watcher → Nat → Prop}
    (hw : ∀ j, i ≤ j → P [] w j)
    (site : ∀ order sigs targets j, targets = orderTargets order (scanTargets (iter w.live.runtime.vhosts.sites order)) →
      Hashed h (i + 1) j (targets.map fun t _ => t.2.1) sigs → ∀ done t rest, targets = done ++ t :: rest → ∀ w' k, j ≤ k → P done w' k →
      Obs.Holds h I (scanSite c sigs targets w' t) k (P (done ++ [t])))
    (hQ : ∀ targets w' k, P targets w' k → Q w' k) : Obs.Holds h I (scan c w) i Q := by
  unfold scan
  rw [Obs.holds_bind, Obs.holds_view]
  refine (hashTargets_silent _).silent.moments.bind fun sigs j hj => ?_
  refine (Obs.holds_fold_done (P := P) (hw j (by omega)) ?_).post fun w' k hk => hQ _ w' k hk
  intro done t rest hdone w' k hk hP
  exact site _ sigs _ j rfl hj.1 done t rest hdone w' k hk hP

/-! ## The loop -/

/-- A tick: the inputs are read, the arm runs, the readings are kept, the content is scanned. -/
theorem tick_holds {w : Watcher} {r : Readings} {j : Nat} {P : Watcher → UInt64 → Nat → Prop} {Q R : Watcher → Nat → Prop}
    (hread : (readInputs w).run h i = ⟨r, j, []⟩)
    (apply : Obs.Holds h I (applyInputs c w r) j fun a k => P a.watcher a.tlsNow k)
    (keep : ∀ w1 t k, P w1 t k →
      I k ⟨{ w1 with cfgLast := r.cfgNow, tlsLast := t, linksLast := r.linksNow }, []⟩ ∧
      Q { w1 with cfgLast := r.cfgNow, tlsLast := t, linksLast := r.linksNow } (k + 1))
    (content : ∀ w1 k, Q w1 k → Obs.Holds h I (scan c w1) k fun w2 l => I l ⟨w2, []⟩ ∧ R w2 (l + 1)) :
    Obs.Holds h I (tick c w) i R := by
  unfold tick
  refine (readInputs_silent w i).bind_run fun r' j' hrun _ _ => ?_
  obtain ⟨rfl, rfl, -⟩ := Outcome.mk.inj (hread.symm.trans hrun)
  refine apply.bind fun a k ha => ?_
  obtain ⟨hI, hQ⟩ := keep a.watcher a.tlsNow k ha
  rw [Obs.holds_bind, Obs.holds_publish]
  refine ⟨hI, (content _ _ hQ).bind fun w2 l hl => ?_⟩
  rw [Obs.holds_bind, Obs.holds_publish, Obs.holds_pure]
  exact hl

/-- The readings of a tick. -/
theorem readInputs_run (h : Nat → World) (w : Watcher) (i : Nat) : ∃ r j, (readInputs w).run h i = ⟨r, j, []⟩ ∧
    r.cfgNow = fileSignature ((h i).info w.configPath) ∧ i ≤ j :=
  (readInputs_silent w i).run_eq

/-- A tick takes time. -/
theorem tick_lt (w : Watcher) (i : Nat) : i < ((tick c w).run h i).next := by
  obtain ⟨r, j, hread, -, hij⟩ := readInputs_run h w i
  refine (tick_holds (I := fun _ _ => True) (P := fun _ _ k => i ≤ k) (Q := fun _ k => i < k) (R := fun _ k => i < k) hread
    ?_ (fun _ _ k hk => ⟨trivial, Nat.lt_succ_of_le hk⟩) fun w1 k hk => ?_).2
  · exact (Obs.holds_moments _).mono (fun _ _ _ => trivial) fun _ k hk => hij.trans hk
  · exact (Obs.holds_moments _).mono (fun _ _ _ => trivial) fun _ l hl => ⟨trivial, by omega⟩

/-! ## Boot -/

theorem freshTrees_silent (roots : List (Str × Path)) :
    Obs.Holds h (fun _ _ => False) (Obs.fold freshTrees ∅ roots) i
      fun last _ => ∀ host root, (host, root) ∈ roots → (last.lookup (siteKey host (display root))).isSome := by
  refine Obs.holds_fold_done (P := fun done (last : Map Str UInt64) _ => ∀ host root, (host, root) ∈ done →
    (last.lookup (siteKey host (display root))).isSome) (by simp) ?_
  intro done hr _ _ last j _ hlast
  unfold freshTrees treeSignatureOf
  rw [Obs.holds_bind, Obs.holds_view, Obs.holds_pure]
  intro host root hmem
  rw [Map.lookup_insert']
  split
  · rfl
  · rename_i hkey
    rcases List.mem_append.1 hmem with hold | hnew
    · exact hlast host root hold
    · rw [← List.mem_singleton.1 hnew] at hkey
      exact absurd rfl hkey

/-- The listeners of a boot: each where the config asks for it, in an accept loop of its own. -/
structure Started (cfg : Config) (https : ListenerCtl) (http : Option ListenerCtl) (loops : Loops) : Prop where
  https : https = ⟨(wantedAddrs cfg).1, 0, cfg.maxConnsPerIp, str "HTTPS"⟩
  http : http = (wantedAddrs cfg).2.map fun addr => ⟨addr, 1, cfg.maxConnsPerIp, str "HTTP"⟩
  loops : loops = match (wantedAddrs cfg).2 with
    | none => ⟨[⟨0, (wantedAddrs cfg).1⟩], 1⟩
    | some addr => ⟨[⟨1, addr⟩, ⟨0, (wantedAddrs cfg).1⟩], 2⟩

/-- The listeners and limits that `watch` starts with. -/
structure Opened (cfg : Config) (https : ListenerCtl) (http : Option ListenerCtl) (loops : Loops) (w : Watcher) : Prop where
  pending : w.pending = none
  maxConnsPerIp : w.maxConnsPerIp = cfg.maxConnsPerIp
  responseSecs : w.responseSecs = cfg.maxResponseSecs
  https : w.https = https
  http : w.http = http
  loops : w.loops = loops

/-- The opening of `watch`: the applied signatures are the sampled ones, the last ones fresh. -/
theorem watchInit_holds {path : Str} {s : Sampled} {rt : Runtime} {cfg : Loaded} {https : ListenerCtl}
    {http : Option ListenerCtl} {loops : Loops} {seq : Nat} {Q : Watcher → Nat → Prop}
    (init : ∀ w order k, i ≤ k → w.configPath = path → w.cfgApplied = s.config → w.live = ⟨rt, cfg, cfg⟩ →
      w.treeApplied = seedBoot s.trees (rooted (iter rt.vhosts.sites order)) ∅ →
      (∀ host root, (host, root) ∈ rooted (iter rt.vhosts.sites order) →
        (w.treeLast.lookup (siteKey host (display root))).isSome) →
      Opened cfg.cfg https http loops w → I k ⟨w, []⟩ ∧ Q w (k + 1)) :
    Obs.Holds h I (watchInit path s rt cfg https http loops seq) i Q := by
  unfold watchInit fileSignatureOf
  rw [Obs.holds_bind, Obs.holds_view]
  refine (rootLinksOf_silent path _).silent.moments.bind fun links j hj => ?_
  refine (tlsSignatureOf_silent s.tlsFiles j).silent.moments.bind fun tls k hk => ?_
  rw [Obs.holds_bind, Obs.holds_view]
  refine (freshTrees_silent _).silent.moments.bind fun last l hl => ?_
  simp only
  rw [Obs.holds_bind, Obs.holds_publish, Obs.holds_pure]
  exact init _ _ l (by omega) rfl rfl rfl rfl hl.1 ⟨rfl, rfl, rfl, rfl, rfl, rfl⟩

/-- The plain listener that a boot starts, next to HTTPS. -/
theorem startHttp_started (cfg : Config) (i : Nat) :
    Obs.Holds h (fun _ _ => False)
      (startHttp ((⟨[], 0⟩ : Loops).spawn (wantedAddrs cfg).1) cfg) i fun x _ => ∀ http loops, x = .ok (http, loops) →
        Started cfg ⟨(wantedAddrs cfg).1, 0, cfg.maxConnsPerIp, str "HTTPS"⟩ http loops := by
  unfold startHttp
  cases hwant : (wantedAddrs cfg).2 with
  | none =>
    rw [Obs.holds_pure]
    rintro http loops ⟨⟩
    exact ⟨rfl, by rw [hwant]; rfl, by rw [hwant]; rfl⟩
  | some addr =>
    rw [Obs.holds_bind]
    refine startListener_holds (fun e _ => by simp) fun _ => ?_
    rw [Obs.holds_pure]
    rintro http loops ⟨⟩
    exact ⟨rfl, by rw [hwant]; rfl, by rw [hwant]; rfl⟩

/-- A boot: it exits, or it opens `watch` with one load, one sample and one build, in that order, and its listeners
started. -/
theorem boot_holds {path : Str} {Q : Watcher → Nat → Prop}
    (init : ∀ cfg s rt seq https http loops j k l, (h i).load path = .ok cfg →
      (sample path cfg.cfg : Watch Sampled).run h (i + 2) = ⟨s, j, []⟩ →
      (buildRuntime c cfg.cfg 0 : Watch _).run h j = ⟨(.ok rt, seq), k, []⟩ → i + 2 ≤ j → j ≤ k → k ≤ l →
      Started cfg.cfg https http loops →
      Obs.Holds h I (watchInit path s rt cfg https http loops seq) l Q) :
    Obs.Holds h I (boot c path) i fun x j => ∀ w, x = .ok w → Q w j := by
  unfold boot
  rw [Obs.holds_bind, holds_loadConfig]
  cases hload : (h i).load path with
  | error e => simp
  | ok cfg =>
    simp only
    rw [Obs.holds_bind, Obs.holds_view]
    split
    · simp
    · refine (sample_silent path cfg.cfg (i + 2)).bind_run fun s j hs hij _ => ?_
      refine (buildRuntime_from 0 j).bind_run fun r k hr hjk _ => ?_
      obtain ⟨r, seq⟩ := r
      cases r with
      | error e => simp
      | ok rt =>
        simp only
        rw [Obs.holds_bind]
        refine startListener_holds (fun e _ => by simp) fun _ => ?_
        refine (startHttp_started cfg.cfg (k + 1)).silent.moments.bind fun x m hm => ?_
        cases x with
        | error e => simp
        | ok x =>
          obtain ⟨http, loops⟩ := x
          refine (init cfg s rt seq _ http loops j k m hload hs hr hij hjk (by omega) (hm.1 http loops rfl)).bind
            fun w n hw => ?_
          rw [Obs.holds_pure]
          rintro w' ⟨⟩
          exact hw

/-! ## Runs -/

/-- A condition on every tick of a process: its first state and moment. -/
def EachTick (c : Crates) (path : Str) (h : Nat → World) (C : Watcher → Nat → Prop) (n : Nat) : Prop :=
  ∀ w j l, (boot c path).run h 0 = ⟨.ok w, j, l⟩ → Obs.EachRound h (tick c) C n w j

/-- A condition on every tick, by computation. -/
theorem eachTick_of_all {path : Str} {C : Watcher → Nat → Prop} [∀ w i, Decidable (C w i)] {n : Nat}
    (hall : ((boot c path).run h 0).value.toOption.all (fun w =>
      decide (Obs.EachRound h (tick c) C n w ((boot c path).run h 0).next)) = true) : EachTick c path h C n := by
  intro w j l hrun
  rw [hrun] at hall
  exact of_decide_eq_true hall

/-- A boot that succeeds in a state of some kind, by computation. -/
theorem boot_of_any (path : Str) (check : Watcher → Nat → Bool)
    (hany : ((boot c path).run h 0).value.toOption.any (fun w => check w ((boot c path).run h 0).next) = true) :
    ∃ w j l, (boot c path).run h 0 = ⟨.ok w, j, l⟩ ∧ check w j = true := by
  obtain ⟨w, hw, hok⟩ := ok_of_any hany
  exact ⟨w, _, _, by rw [← hw], hok⟩

/-- The failure of a condition on some tick, by computation. -/
theorem not_eachTick_of_any {path : Str} {C : Watcher → Nat → Prop} [∀ w i, Decidable (C w i)] {n : Nat}
    (hany : ((boot c path).run h 0).value.toOption.any (fun w =>
      !decide (Obs.EachRound h (tick c) C n w ((boot c path).run h 0).next)) = true) : ¬ EachTick c path h C n := by
  intro hall
  obtain ⟨w, j, l, hrun, hnot⟩ := boot_of_any path (fun w j => !decide (Obs.EachRound h (tick c) C n w j)) hany
  simp [hall w j l hrun] at hnot

theorem EachTick.mono {path : Str} {n : Nat} {C D : Watcher → Nat → Prop} (hC : EachTick c path h C n)
    (hCD : ∀ w i, C w i → D w i) : EachTick c path h D n :=
  fun w j l hrun => (hC w j l hrun).mono hCD

theorem eachTick_of_forall {path : Str} {C : Watcher → Nat → Prop} (hC : ∀ w i, C w i) (n : Nat) : EachTick c path h C n :=
  fun w j _ _ => .of_forall hC n w j

/-- The run rule of the process: an invariant that boot establishes and every tick under a condition keeps. -/
theorem process_holds {path : Str} {n : Nat} {P C : Watcher → Nat → Prop}
    (start : Obs.Holds h I (boot c path) 0 fun x j => ∀ w, x = .ok w → P w j)
    (step : ∀ w i, P w i → C w i → Obs.Holds h I (tick c w) i P) (ticks : EachTick c path h C n) :
    Obs.Holds h I (process c path n) 0 fun x j => ∀ w, x = some w → P w j := by
  unfold process
  refine start.exact.bind fun x j hx => ?_
  obtain ⟨hP, hx, hj⟩ := hx
  cases x with
  | error e => simp
  | ok w =>
    have hrun : (boot c path).run h 0 = ⟨.ok w, j, ((boot c path).run h 0).trace⟩ := by rw [hx, hj]
    refine (Obs.holds_repeatN step n w j (hP w rfl) (ticks w j _ hrun)).bind fun w' k hw' => ?_
    rw [Obs.holds_pure]
    rintro w'' ⟨⟩
    exact hw'

/-- The rule for a property of single ticks: an invariant from boot on and the condition give it in each. -/
theorem EachTick.imp {path : Str} {n : Nat} {P C D : Watcher → Nat → Prop}
    (start : Obs.Holds h I (boot c path) 0 fun x j => ∀ w, x = .ok w → P w j)
    (step : ∀ w i, P w i → C w i → D w i ∧ P ((tick c w).run h i).value ((tick c w).run h i).next)
    (ticks : EachTick c path h C n) : EachTick c path h D n := by
  intro w j l hrun
  exact Obs.EachRound.imp step n w j (start.of_run hrun w rfl) (ticks w j l hrun)

end BareServer
