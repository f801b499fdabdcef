/-
The listeners of a process against the addresses its configs ask for: the accept loops that run, the
limits they enforce, and how one tick may move them.
-/
import BareServer.Lib.Sockets
import BareServer.Watch.Runtime

namespace BareServer

open BareServer.Lib

variable {h : Nat → World} {I : Nat → Publication → Prop} {i : Nat} {c : Crates} {path : Str}

/-! ## Accept loops -/

/-- Exactly the loops of a list run, each under a generation counter of its own. -/
structure Loops.Runs (l : Loops) (ls : List AcceptLoop) : Prop where
  running : l.running.Perm ls
  gens : (ls.map (·.gen)).Nodup
  fresh : ∀ a ∈ ls, a.gen < l.next

namespace Loops.Runs

variable {l : Loops} {ls ls' : List AcceptLoop} {a : AcceptLoop}

theorem perm (hl : l.Runs ls) (hp : ls.Perm ls') : l.Runs ls' :=
  ⟨hl.running.trans hp, (hp.map _).nodup_iff.1 hl.gens, fun a ha => hl.fresh a (hp.mem_iff.2 ha)⟩

theorem spawn (hl : l.Runs ls) (addr : Str) : (l.spawn addr).Runs (⟨l.next, addr⟩ :: ls) := by
  constructor
  · exact hl.running.cons _
  · rw [List.map_cons, List.nodup_cons]
    refine ⟨fun hm => ?_, hl.gens⟩
    obtain ⟨a, ha, he⟩ := List.mem_map.1 hm
    exact absurd he (hl.fresh a ha).ne
  · rw [List.forall_mem_cons]
    exact ⟨Nat.lt_succ_self _, fun a ha => (hl.fresh a ha).trans (Nat.lt_succ_self _)⟩

/-- Bumping a counter stops the loop that was started with it. -/
theorem retire (hl : l.Runs (a :: ls)) : (l.retire a.gen).Runs ls := by
  have hg := hl.gens
  rw [List.map_cons, List.nodup_cons] at hg
  have hkeep : ls.filter (fun b => b.gen ≠ a.gen) = ls := by
    rw [List.filter_eq_self]
    intro b hb
    simpa using fun he => hg.1 (List.mem_map.2 ⟨b, hb, he⟩)
  have hfilter := hl.running.filter fun b => b.gen ≠ a.gen
  rw [List.filter_cons_of_neg (by simp), hkeep] at hfilter
  exact ⟨hfilter, hg.2, fun b hb => hl.fresh b (List.mem_cons_of_mem _ hb)⟩

end Loops.Runs

/-! ## The listeners -/

/-- The accept loop a control stands for. -/
def ListenerCtl.loop (ctl : ListenerCtl) : AcceptLoop := ⟨ctl.gen, ctl.addr⟩

/-- The accept loops of both listeners. -/
def Watcher.listening (w : Watcher) : List AcceptLoop := w.https.loop :: (w.http.map ListenerCtl.loop).toList

/-- Where both listeners are. -/
def Watcher.sockets (w : Watcher) : Pair Str := ⟨w.https.addr, w.http.map (·.addr)⟩

/-- Where the latest accepted config wants them. -/
def Watcher.wanted (w : Watcher) : Pair Str :=
  ⟨(wantedAddrs w.live.vhostsFrom.cfg).1, (wantedAddrs w.live.vhostsFrom.cfg).2⟩

/-- Each listener has the one accept loop it controls, and no other loop runs. -/
def Serving (w : Watcher) : Prop := w.loops.Runs w.listening

/-- The limits of a config are enforced on every connection: its per-address cap by both listeners and by those
still to come, its response time by the cell that all accept loops read. -/
structure Enforces (cfg : Config) (w : Watcher) : Prop where
  next : w.maxConnsPerIp = cfg.maxConnsPerIp
  https : w.https.maxPerIp = cfg.maxConnsPerIp
  http : ∀ ctl, w.http = some ctl → ctl.maxPerIp = cfg.maxConnsPerIp
  response : w.responseSecs = cfg.maxResponseSecs

/-- A state that is not torn: accept loops and limits are in place, what is pending is what the latest accepted
config wants, and when nothing is pending the listeners are there. -/
structure Untorn (w : Watcher) : Prop where
  serving : Serving w
  limits : Enforces w.live.vhostsFrom.cfg w
  pending : ∀ xy, w.pending = some xy → xy = wantedAddrs w.live.vhostsFrom.cfg
  settled : w.pending = none → w.sockets = w.wanted

/-- Two watchers with the same listeners, limits and accepted config. -/
structure SameListeners (w w' : Watcher) : Prop where
  https : w'.https = w.https
  http : w'.http = w.http
  loops : w'.loops = w.loops
  pending : w'.pending = w.pending
  maxConnsPerIp : w'.maxConnsPerIp = w.maxConnsPerIp
  responseSecs : w'.responseSecs = w.responseSecs
  vhostsFrom : w'.live.vhostsFrom = w.live.vhostsFrom

theorem SameListeners.refl (w : Watcher) : SameListeners w w := ⟨rfl, rfl, rfl, rfl, rfl, rfl, rfl⟩

theorem SameListeners.listening {w w' : Watcher} (hs : SameListeners w w') : w'.listening = w.listening := by
  rw [Watcher.listening, hs.https, hs.http, Watcher.listening]

theorem SameListeners.untorn {w w' : Watcher} (hs : SameListeners w w') (hw : Untorn w) : Untorn w' := by
  constructor
  · rw [Serving, hs.loops, hs.listening]
    exact hw.serving
  · obtain ⟨hn, hhttps, hhttp, hr⟩ := hw.limits
    rw [hs.vhostsFrom]
    exact ⟨hs.maxConnsPerIp.trans hn, by rw [hs.https]; exact hhttps, by rw [hs.http]; exact hhttp,
      hs.responseSecs.trans hr⟩
  · rw [hs.pending, hs.vhostsFrom]
    exact hw.pending
  · intro hp
    have := hw.settled (hs.pending ▸ hp)
    unfold Watcher.sockets Watcher.wanted at this ⊢
    rw [hs.https, hs.http, hs.vhostsFrom]
    exact this

theorem resetBackoff_listeners (w : Watcher) (cfgNow tlsNow : UInt64) :
    SameListeners w (resetBackoff w cfgNow tlsNow) := by
  unfold resetBackoff
  cases w.failedAt with
  | none => exact .refl w
  | some s =>
    simp only
    split
    · constructor <;> rfl
    · exact .refl w

/-! ## One step -/

/-- A fresh loop for HTTPS in the place of the old one. -/
theorem Serving.httpsAt {w : Watcher} (hw : Serving w) (addr : Str) : Serving (w.httpsAt addr) := by
  unfold Watcher.httpsAt
  split
  · exact hw
  · exact hw.retire.spawn addr

/-- A fresh loop for plain HTTP, or none, and HTTPS as it is. -/
theorem Serving.httpAt {w : Watcher} (hw : Serving w) (want : Option Str) : Serving (w.httpAt want) := by
  unfold Serving Watcher.listening at hw
  unfold Watcher.httpAt
  -- moved, removed, opened, or none before and after
  split
  · rename_i ctl addr hctl
    split
    · exact hw
    · rw [hctl] at hw
      exact ((hw.perm (.swap _ _ _)).retire.spawn addr).perm (.swap _ _ _)
  · rename_i ctl hctl
    rw [hctl] at hw
    exact (hw.perm (.swap _ _ _)).retire
  · rename_i addr hctl
    rw [hctl] at hw
    exact (hw.spawn addr).perm (.swap _ _ _)
  · exact hw

@[simp] theorem httpsAt_sockets (w : Watcher) (addr : Str) : (w.httpsAt addr).sockets = ⟨addr, w.sockets.secondary⟩ := by
  unfold Watcher.httpsAt
  split
  · rename_i ha
    rw [← ha]
    rfl
  · rfl

@[simp] theorem httpAt_sockets (w : Watcher) (want : Option Str) : (w.httpAt want).sockets = ⟨w.sockets.primary, want⟩ := by
  unfold Watcher.httpAt
  split
  · rename_i ctl addr hctl
    split
    · rename_i ha
      simp [Watcher.sockets, hctl, ha]
    · rfl
  · rfl
  · rfl
  · rename_i hctl
    simp [Watcher.sockets, hctl]

/-- Bringing HTTPS to an address leaves plain HTTP, the limits and what is pending as they are. -/
structure OnlyHttps (w w' : Watcher) : Prop where
  http : w'.http = w.http
  pending : w'.pending = w.pending
  maxPerIp : w'.https.maxPerIp = w.https.maxPerIp
  maxConnsPerIp : w'.maxConnsPerIp = w.maxConnsPerIp
  responseSecs : w'.responseSecs = w.responseSecs
  vhostsFrom : w'.live.vhostsFrom = w.live.vhostsFrom

theorem httpsAt_only (w : Watcher) (addr : Str) : OnlyHttps w (w.httpsAt addr) := by
  unfold Watcher.httpsAt
  split <;> exact ⟨rfl, rfl, rfl, rfl, rfl, rfl⟩

/-- Bringing plain HTTP to an address leaves HTTPS, the limits and the accepted config as they are. -/
structure OnlyHttp (w w' : Watcher) : Prop where
  https : w'.https = w.https
  limits : ∀ ctl', w'.http = some ctl' → ctl'.maxPerIp = w.maxConnsPerIp ∨ ∃ ctl, w.http = some ctl ∧ ctl'.maxPerIp = ctl.maxPerIp
  maxConnsPerIp : w'.maxConnsPerIp = w.maxConnsPerIp
  responseSecs : w'.responseSecs = w.responseSecs
  vhostsFrom : w'.live.vhostsFrom = w.live.vhostsFrom

theorem httpAt_only (w : Watcher) (want : Option Str) : OnlyHttp w (w.httpAt want) := by
  unfold Watcher.httpAt
  split
  · rename_i ctl addr hctl
    split
    · exact ⟨rfl, fun ctl' hctl' => .inr ⟨ctl', hctl', rfl⟩, rfl, rfl, rfl⟩
    · refine ⟨rfl, ?_, rfl, rfl, rfl⟩
      rintro _ ⟨⟩
      exact .inr ⟨ctl, hctl, rfl⟩
  · exact ⟨rfl, nofun, rfl, rfl, rfl⟩
  · refine ⟨rfl, ?_, rfl, rfl, rfl⟩
    rintro _ ⟨⟩
    exact .inl rfl
  · exact ⟨rfl, fun ctl' hctl' => .inr ⟨ctl', hctl', rfl⟩, rfl, rfl, rfl⟩

theorem Enforces.httpsAt {cfg : Config} {w : Watcher} (hw : Enforces cfg w) (addr : Str) : Enforces cfg (w.httpsAt addr) := by
  have ho := httpsAt_only w addr
  exact ⟨ho.maxConnsPerIp.trans hw.next, ho.maxPerIp.trans hw.https, by rw [ho.http]; exact hw.http,
    ho.responseSecs.trans hw.response⟩

theorem Enforces.httpAt {cfg : Config} {w : Watcher} (hw : Enforces cfg w) (want : Option Str) :
    Enforces cfg (w.httpAt want) := by
  have ho := httpAt_only w want
  refine ⟨ho.maxConnsPerIp.trans hw.next, by rw [ho.https]; exact hw.https, fun ctl' hctl' => ?_,
    ho.responseSecs.trans hw.response⟩
  rcases ho.limits ctl' hctl' with hcap | ⟨ctl, hctl, hcap⟩
  · exact hcap.trans hw.next
  · exact hcap.trans (hw.http ctl hctl)

/-- The sockets of an armed watcher can be bound where its binds succeed: one at the moment it starts to reconcile, or
the next one once HTTPS has moved. -/
def canBind (h : Nat → World) (w : Watcher) (i : Nat) (s : Pair Str) (addr : Str) : Prop :=
  (h (if s.primary = w.https.addr then i else i + 1)).bind addr = .ok ()

theorem HttpsSettles.canBind {w : Watcher} {x : Str} {j : Nat} (hs : HttpsSettles h w x i j) (addr : Str) :
    canBind h w i ⟨x, w.sockets.secondary⟩ addr ↔ (h j).bind addr = .ok () := by
  unfold BareServer.canBind
  rcases hs with ⟨ha, rfl⟩ | ⟨ha, -, rfl⟩
  · rw [if_pos ha.symm]
  · rw [if_neg (Ne.symm ha)]

/-- A reconciliation is one attempt to bring the sockets to the pending addresses. -/
theorem reconcile_attempt {a : Armed} {x : Str} {y : Option Str} (hp : a.watcher.pending = some (x, y)) (i : Nat) :
    Obs.Holds h (fun _ _ => False) (reconcile a) i fun b _ => ∃ settled,
      Pair.Attempt (canBind h a.watcher i) ⟨x, y⟩ a.watcher.sockets b.watcher.sockets settled ∧
      b.watcher.pending = if settled then none else some (x, y) := by
  have hfirst : ∀ x' j, x' = x → HttpsSettles h a.watcher x' i j →
      a.watcher.sockets.primary = x ∨ canBind h a.watcher i a.watcher.sockets x := by
    rintro x' j rfl (⟨ha, -⟩ | ⟨ha, hb, -⟩)
    · exact .inl ha
    · exact .inr (by simpa [canBind, Watcher.sockets] using hb)
  refine reconcile_holds (fun hn => ?_) (fun x' y' e hp' ha hb => ?_) (fun x' b e j hp' hj hne hb => ?_)
    fun x' y' j k hp' hj hs _ => ?_
  · rw [hp] at hn
    cases hn
  · obtain ⟨rfl, rfl⟩ : x = x' ∧ y = y' := by simpa [hp] using hp'
    exact ⟨false, .refused ha (by simpa [canBind, Watcher.sockets] using hb), hp⟩
  · obtain ⟨rfl, rfl⟩ : x = x' ∧ y = some b := by simpa [hp] using hp'
    refine ⟨false, ?_, ?_⟩
    · rw [httpsAt_sockets]
      exact .halfway b (hfirst _ _ rfl hj) rfl hne fun hok => hb ((hj.canBind b).1 hok)
    · exact (httpsAt_only _ x).pending.trans hp
  · obtain ⟨rfl, rfl⟩ : x = x' ∧ y = y' := by simpa [hp] using hp'
    refine ⟨true, ?_, rfl⟩
    have hsock : ({ (a.watcher.httpsAt x).httpAt y with pending := none } : Watcher).sockets = ⟨x, y⟩ := by
      have := httpAt_sockets (a.watcher.httpsAt x) y
      rw [httpsAt_sockets] at this
      exact this
    rw [hsock]
    exact .done (hfirst _ _ rfl hj) fun b hb => (hs b hb).imp id fun hok => (hj.canBind b).2 hok

/-! ## Untorn states -/

/-- HTTPS where the accepted config wants it, plain HTTP still pending. -/
theorem Untorn.httpsAt {w : Watcher} (hw : Untorn w) {x : Str} {y : Option Str} (hp : w.pending = some (x, y)) :
    Untorn (w.httpsAt x) := by
  have ho := httpsAt_only w x
  constructor
  · exact hw.serving.httpsAt x
  · rw [ho.vhostsFrom]
    exact hw.limits.httpsAt x
  · rw [ho.pending, ho.vhostsFrom]
    exact hw.pending
  · rw [ho.pending, hp]
    nofun

/-- Both where the accepted config wants them. -/
theorem Untorn.done {w : Watcher} (hw : Untorn w) {x : Str} {y : Option Str} (hp : w.pending = some (x, y)) :
    Untorn { (w.httpsAt x).httpAt y with pending := none } := by
  have ho := httpsAt_only w x
  have ho' := httpAt_only (w.httpsAt x) y
  have hwant := hw.pending _ hp
  constructor
  · exact (hw.serving.httpsAt x).httpAt y
  · have hlimits := (hw.limits.httpsAt x).httpAt y
    rw [← ho.vhostsFrom, ← ho'.vhostsFrom] at hlimits
    exact ⟨hlimits.next, hlimits.https, hlimits.http, hlimits.response⟩
  · nofun
  · intro _
    have hsockets := httpAt_sockets (w.httpsAt x) y
    rw [httpsAt_sockets] at hsockets
    refine hsockets.trans ?_
    show _ = (⟨_, _⟩ : Pair Str)
    simp only [ho'.vhostsFrom, ho.vhostsFrom, ← hwant]

/-- New limits over the same accept loops, and new addresses to come. -/
theorem Untorn.reloaded {w : Watcher} (hw : Untorn w) (cfg : Loaded) (s : Sampled) (rt : Runtime)
    (applied last : Map Str UInt64) (cfgNow : UInt64) (seq : Nat) :
    Untorn (w.reloaded cfg s rt applied last cfgNow seq) := by
  constructor
  · have hserving := hw.serving
    unfold Serving Watcher.listening at hserving ⊢
    cases hctl : w.http <;> simpa [Watcher.reloaded, hctl, ListenerCtl.loop] using hserving
  · refine ⟨rfl, rfl, fun ctl hctl => ?_, rfl⟩
    obtain ⟨old, -, rfl⟩ := Option.map_eq_some_iff.1 hctl
    rfl
  · rintro xy ⟨⟩
    rfl
  · nofun

/-- The state that `watch` opens with. -/
theorem Opened.untorn {cfg : Loaded} {rt : Runtime} {https : ListenerCtl} {http : Option ListenerCtl} {loops : Loops}
    {w : Watcher} (ho : Opened cfg.cfg https http loops w) (hs : Started cfg.cfg https http loops)
    (hlive : w.live = ⟨rt, cfg, cfg⟩) : Untorn w := by
  constructor
  · unfold Serving Watcher.listening
    rw [ho.loops, ho.https, ho.http, hs.loops, hs.https, hs.http]
    have hempty : (⟨[], 0⟩ : Loops).Runs [] := ⟨.nil, .nil, nofun⟩
    cases (wantedAddrs cfg.cfg).2 with
    | none => exact hempty.spawn _
    | some addr => exact ((hempty.spawn _).spawn addr).perm (.swap _ _ _)
  · rw [hlive]
    refine ⟨ho.maxConnsPerIp, by rw [ho.https, hs.https], fun ctl hctl => ?_, ho.responseSecs⟩
    rw [ho.http, hs.http] at hctl
    obtain ⟨addr, -, rfl⟩ := Option.map_eq_some_iff.1 hctl
    rfl
  · rw [ho.pending]
    nofun
  · intro _
    unfold Watcher.sockets Watcher.wanted
    rw [ho.https, ho.http, hs.https, hs.http, hlive]
    simp [Function.comp_def]

/-! ## Ticks -/

/-- The accept loop of the plain listener. -/
def Watcher.plainLoop (w : Watcher) : Option AcceptLoop := w.http.map ListenerCtl.loop

/-- Both listeners have the accept loops they had. -/
def SameLoops (w p : Watcher) : Prop := p.https.loop = w.https.loop ∧ p.plainLoop = w.plainLoop

/-- Does a tick act on what it reads? -/
def acts (w : Watcher) (r : Readings) : Bool := r.due && (cfgChanged w r || tlsChanged w r || w.pending.isSome)

/-- A tick reconciles at moment `k`, towards the pending addresses. -/
def Reconciles (h : Nat → World) (c : Crates) (w : Watcher) (i k : Nat) (x : Str) (y : Option Str) : Prop :=
  ∃ r j a t, (readInputs w).run h i = ⟨r, j, []⟩ ∧ acts (resetBackoff w r.cfgNow r.tlsNow) r = true ∧
    (takeArm c (resetBackoff w r.cfgNow r.tlsNow) r).run h j = ⟨a, k, t⟩ ∧ a.watcher.pending = some (x, y)

/-- How a tick from `w` may have moved the listeners of `p`: plain HTTP only with HTTPS where the accepted config
wants it, and neither of them when its bind failed. -/
structure Steady (h : Nat → World) (c : Crates) (w : Watcher) (i : Nat) (p : Watcher) : Prop where
  plain : p.plainLoop = w.plainLoop ∨ p.sockets.primary = p.wanted.primary
  https : ∀ k x y, Reconciles h c w i k x y → w.https.addr ≠ x → (h k).bind x ≠ .ok () → SameLoops w p
  http : ∀ k m x b, Reconciles h c w i k x (some b) → HttpsSettles h w x k m → w.sockets.secondary ≠ some b →
    (h m).bind b ≠ .ok () → p.plainLoop = w.plainLoop

theorem SameLoops.steady {w p : Watcher} (hs : SameLoops w p) : Steady h c w i p :=
  ⟨.inl hs.2, fun _ _ _ _ _ _ => hs, fun _ _ _ _ _ _ _ _ => hs.2⟩

theorem SameLoops.sockets {w p : Watcher} (hs : SameLoops w p) : p.sockets = w.sockets := by
  have hloop : ∀ o : Option ListenerCtl, o.map (·.addr) = (o.map ListenerCtl.loop).map (·.addr) := by
    intro o
    cases o <;> rfl
  unfold Watcher.sockets
  rw [hloop, hloop]
  exact congrArg₂ Pair.mk (congrArg AcceptLoop.addr hs.1) (congrArg (Option.map (·.addr)) hs.2)

theorem SameListeners.sameLoops {w w' : Watcher} (hs : SameListeners w w') : SameLoops w w' :=
  ⟨by rw [hs.https], by rw [Watcher.plainLoop, hs.http, Watcher.plainLoop]⟩

theorem SameLoops.trans {a b d : Watcher} (hab : SameLoops a b) (hbd : SameLoops b d) : SameLoops a d :=
  ⟨hbd.1.trans hab.1, hbd.2.trans hab.2⟩

theorem SameListeners.steady {w p p' : Watcher} (hs : SameListeners p p') (hp : Steady h c w i p) : Steady h c w i p' := by
  have hloops := hs.sameLoops
  refine ⟨?_, fun k x y hr hx hb => (hp.https k x y hr hx hb).trans hloops,
    fun k m x b hr hm hb hno => hloops.2.trans (hp.http k m x b hr hm hb hno)⟩
  rw [hloops.2, hloops.sockets, Watcher.wanted, hs.vhostsFrom]
  exact hp.plain

theorem HttpsSettles.unique {w w' : Watcher} {x : Str} {k m m' : Nat} (ha : w'.https.addr = w.https.addr)
    (hm : HttpsSettles h w x k m) (hm' : HttpsSettles h w' x k m') : m = m' := by
  unfold HttpsSettles at hm hm'
  rw [ha] at hm'
  rcases hm with ⟨he, rfl⟩ | ⟨hne, -, rfl⟩ <;> rcases hm' with ⟨he', rfl⟩ | ⟨hne', -, rfl⟩
  · rfl
  · exact absurd he hne'
  · exact absurd he' hne
  · rfl

/-- A tick that acts takes an arm and reconciles; otherwise its listeners stay. -/
theorem applyInputs_reconciles {w : Watcher} {r : Readings} {P : Armed → Nat → Prop} {Q : Watcher → Prop}
    (same : ∀ w1 w2, SameListeners w1 w2 → SameCore w1 w2 → Q w1 → Q w2)
    (arm : acts (resetBackoff w r.cfgNow r.tlsNow) r = true →
      Obs.Holds h I (takeArm c (resetBackoff w r.cfgNow r.tlsNow) r) i P)
    (listeners : ∀ a k t, acts (resetBackoff w r.cfgNow r.tlsNow) r = true →
      (takeArm c (resetBackoff w r.cfgNow r.tlsNow) r).run h i = ⟨a, k, t⟩ → P a k →
      Obs.Holds h (fun _ _ => False) (reconcile a) k fun b _ => Q b.watcher)
    (idle : Q w) : Obs.Holds h I (applyInputs c w r) i fun a _ => Q a.watcher := by
  unfold applyInputs
  simp only
  split
  · rename_i hacts
    refine (arm hacts).exact.bind fun a k ha => ?_
    obtain ⟨hP, rfl, rfl⟩ := ha
    refine (listeners _ _ _ hacts rfl hP).silent.bind fun b l hb => ?_
    unfold settle
    split
    · rw [Obs.holds_pure]
      exact same _ _ (by constructor <;> rfl) (by constructor <;> rfl) hb
    · rw [Obs.holds_bind, Obs.holds_view, Obs.holds_pure]
      exact same _ _ (by constructor <;> rfl) (by constructor <;> rfl) hb
  · rw [Obs.holds_pure]
    exact same _ _ (resetBackoff_listeners w _ _) (resetBackoff_core w _ _) idle

/-- An arm keeps the accept loops. -/
theorem takeArm_sameLoops {w : Watcher} (hw : Untorn w) (r : Readings) :
    Obs.Holds h (fun _ p => Untorn p.watcher ∧ SameLoops w p.watcher) (takeArm c w r) i
      fun a _ => Untorn a.watcher ∧ SameLoops w a.watcher := by
  unfold takeArm
  split
  · refine reload_holds (fun seq e k _ => ?_) fun cfg s rt seq order applied last k l m _ _ _ _ _ _ _ => ?_
    · have hsame : SameListeners w { w with buildSeq := seq } := by constructor <;> rfl
      exact ⟨hsame.untorn hw, hsame.sameLoops⟩
    · -- a reload changes what is wanted and the limits, not the loops
      have hnew := hw.reloaded cfg s rt applied last r.cfgNow seq
      have hloops : SameLoops w (w.reloaded cfg s rt applied last r.cfgNow seq) := by
        refine ⟨rfl, ?_⟩
        unfold Watcher.plainLoop Watcher.reloaded
        cases w.http <;> rfl
      exact ⟨⟨hnew, hloops⟩, fun _ _ _ => ⟨hnew, hloops⟩⟩
  · split
    · refine reloadTls_holds (fun e k _ => ⟨hw, rfl, rfl⟩) fun cfg tls k _ _ _ => ?_
      have hsame : SameListeners w (w.renewed cfg tls r.tlsNow) := by constructor <;> rfl
      exact ⟨⟨hsame.untorn hw, hsame.sameLoops⟩, hsame.untorn hw, hsame.sameLoops⟩
    · rw [Obs.holds_pure]
      exact ⟨hw, rfl, rfl⟩

/-- What a reconciliation makes of an armed watcher whose accept loops are those the tick began with. -/
theorem reconcile_steady {w : Watcher} {a : Armed} {k : Nat} (ha : Untorn a.watcher) (hloops : SameLoops w a.watcher)
    (hfrom : ∀ k' x y, Reconciles h c w i k' x y → k' = k ∧ a.watcher.pending = some (x, y)) :
    Obs.Holds h (fun _ _ => False) (reconcile a) k fun b _ => Untorn b.watcher ∧ Steady h c w i b.watcher := by
  have haddr : a.watcher.https.addr = w.https.addr := congrArg AcceptLoop.addr hloops.1
  -- a bind of HTTPS that failed did not settle it
  have hsettled : ∀ x j, HttpsSettles h a.watcher x k j → w.https.addr ≠ x → (h k).bind x ≠ .ok () → False := by
    rintro x j (⟨he, -⟩ | ⟨-, hok, -⟩) hne hno
    · exact hne (haddr ▸ he)
    · exact hno hok
  refine reconcile_holds (fun _ => ⟨ha, hloops.steady⟩) (fun _ _ _ _ _ _ => ⟨ha, hloops.steady⟩)
    (fun x b e j hp hj _ _ => ⟨ha.httpsAt hp, ?_⟩) fun x y j l hp hj hs _ => ⟨ha.done hp, ?_⟩
  · -- HTTPS is there, the bind of plain HTTP failed
    have hplain : (a.watcher.httpsAt x).plainLoop = w.plainLoop := by
      rw [Watcher.plainLoop, httpsAt_http]
      exact hloops.2
    refine ⟨.inl hplain, fun k' x' y' hr hne hno => ?_, fun _ _ _ _ _ _ _ _ => hplain⟩
    obtain ⟨rfl, hp'⟩ := hfrom k' x' y' hr
    rw [hp] at hp'
    cases hp'
    exact (hsettled _ _ hj hne hno).elim
  · -- both are there: no bind that was tried failed
    refine ⟨.inr (congrArg Pair.primary ((ha.done hp).settled rfl)), fun k' x' y' hr hne hno => ?_,
      fun k' m x' b hr hm hne hno => ?_⟩
    · obtain ⟨rfl, hp'⟩ := hfrom k' x' y' hr
      rw [hp] at hp'
      cases hp'
      exact (hsettled _ _ hj hne hno).elim
    · obtain ⟨rfl, hp'⟩ := hfrom k' x' (some b) hr
      rw [hp] at hp'
      cases hp'
      obtain rfl := hm.unique haddr hj
      rw [← hloops.sockets] at hne
      exact ((hs b rfl).elim hne hno).elim

theorem tick_untorn {w : Watcher} (hw : Untorn w) :
    Obs.Holds h (fun _ p => Untorn p.watcher ∧ Steady h c w i p.watcher) (tick c w) i fun w' _ => Untorn w' := by
  obtain ⟨r, j, hread, -, -⟩ := readInputs_run h w i
  refine tick_holds (P := fun w' _ _ => Untorn w' ∧ Steady h c w i w') (Q := fun w' _ => Untorn w' ∧ Steady h c w i w')
    hread ?_ (fun w1 t k hP => ?_) fun w1 k hQ => ?_
  · -- the arm and the reconciliation after it
    have hreset := resetBackoff_listeners w r.cfgNow r.tlsNow
    refine applyInputs_reconciles (Q := fun w' => Untorn w' ∧ Steady h c w i w')
      (fun w1 w2 hs _ hq => ⟨hs.untorn hq.1, hs.steady hq.2⟩)
      (fun _ => (takeArm_sameLoops (hreset.untorn hw) r).mono
        (fun _ _ hI => ⟨hI.1, (hreset.sameLoops.trans hI.2).steady⟩) fun _ _ hP => hP)
      (fun a k t hacts hrun hP => ?_) ⟨hw, SameLoops.steady ⟨rfl, rfl⟩⟩
    refine reconcile_steady hP.1 (hreset.sameLoops.trans hP.2) ?_
    rintro k' x y ⟨r', j', a', t', hread', -, hrun', hp⟩
    obtain ⟨rfl, rfl, -⟩ := Outcome.mk.inj (hread.symm.trans hread')
    obtain ⟨rfl, rfl, -⟩ := Outcome.mk.inj (hrun.symm.trans hrun')
    exact ⟨rfl, hp⟩
  · -- what the tick notes as seen
    have hsame : SameListeners w1 { w1 with cfgLast := r.cfgNow, tlsLast := t, linksLast := r.linksNow } := by
      constructor <;> rfl
    have hkept := And.intro (hsame.untorn hP.1) (hsame.steady hP.2)
    exact ⟨hkept, hkept⟩
  · -- the scan of the document roots
    refine scan_holds (P := fun _ w' _ => Untorn w' ∧ Steady h c w i w') (fun _ _ => hQ) ?_ fun _ w' _ hP => ⟨hP, hP.1⟩
    intro order sigs targets l _ _ done t rest _ w' m _ hP
    refine scanSite_holds (fun seq failed n _ => ?_) fun cache total seq _ _ => ?_
    · have hsame : SameListeners w' { w' with
          buildSeq := seq, treeFailed := failed, treeLast := w'.treeLast.insert (targetKey t) (scanned sigs t) } := by
        constructor <;> rfl
      exact ⟨hsame.untorn hP.1, hsame.steady hP.2⟩
    · have hsame : SameListeners w' (w'.rebuilt t.1.id cache (targetKey t) (scanned sigs t) seq) := by
        constructor <;> rfl
      have hkept := And.intro (hsame.untorn hP.1) (hsame.steady hP.2)
      exact ⟨hkept, hkept⟩

theorem boot_untorn (h : Nat → World) (c : Crates) (path : Str) :
    Obs.Holds h (fun _ p => Untorn p.watcher) (boot c path) 0 fun x _ => ∀ w, x = .ok w → Untorn w := by
  refine boot_holds fun cfg s rt seq https http loops j k l _ _ _ _ _ _ hstarted => watchInit_holds ?_
  intro w order m _ _ _ hlive _ _ hopened
  have huntorn := hopened.untorn hstarted hlive
  exact ⟨huntorn, huntorn⟩

/-- Over every boot and every number of ticks, whatever the configs, the files and the binds do: no published state is
torn, and no tick moves plain HTTP while HTTPS is not where it is wanted, or a listener whose bind failed. -/
theorem process_untorn (c : Crates) (path : Str) (h : Nat → World) (n : Nat) :
    (∀ e ∈ ((process c path n).run h 0).trace, Untorn e.2.watcher) ∧
    EachTick c path h (fun w i => ∀ e ∈ ((tick c w).run h i).trace, Steady h c w i e.2.watcher) n := by
  refine ⟨(process_holds (P := fun w _ => Untorn w) (boot_untorn h c path)
    (fun w i hw _ => (tick_untorn hw).mono (fun _ _ hI => hI.1) fun _ _ hQ => hQ) (eachTick_of_forall (fun _ _ => trivial) n)).1, ?_⟩
  refine EachTick.imp (P := fun w _ => Untorn w) (C := fun _ _ => True) (boot_untorn h c path) (fun w i hw _ => ?_)
    (eachTick_of_forall (fun _ _ => trivial) n)
  have htick := tick_untorn (h := h) (c := c) (i := i) hw
  exact ⟨fun e he => (htick.1 e he).2, htick.2⟩

end BareServer
