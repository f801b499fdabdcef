/-
The ports in the live host table, from which redirects are built, against the ports that the listeners
accept on.
-/
import BareServer.Watch.Listeners

namespace BareServer

open BareServer.Lib

variable {h : Nat → World} {i : Nat} {c : Crates} {path : Str}

/-! ## Ports -/

/-- The number of a port: a `u16`. -/
def portNumber (port : Str) : Option Nat := parseUnsigned (2 ^ 16) port

/-- The port an address asks for, after its last colon. -/
def portOf (addr : Str) : Option Nat := (rsplitOnce addr 58).bind fun hp => portNumber hp.2

/-- A socket bound to an address may accept on a port: the one it asks for, and for port 0 any that the system picks. -/
def AcceptsOn (addr : Str) (p : Nat) : Prop := p ≠ 0 ∧ (portOf addr = some p ∨ portOf addr = some 0)

/-- The ports of a host table are those its sockets accept on. -/
structure NamesPorts (vhosts : Vhosts) (s : Pair Str) : Prop where
  https : ∀ p, AcceptsOn s.primary p → portNumber vhosts.httpsPort = some p
  http : ∀ addr, s.secondary = some addr → ∀ p, AcceptsOn addr p → portNumber vhosts.httpPort = some p

/-- Does a port name what an address accepts on? -/
def names (port addr : Str) : Bool :=
  match portOf addr with
  | none => true
  | some 0 => false
  | some n => portNumber port == some n

theorem names_iff {port addr : Str} : names port addr = true ↔ ∀ p, AcceptsOn addr p → portNumber port = some p := by
  unfold names AcceptsOn
  rcases portOf addr with _ | _ | n
  · simp
  · -- the system may pick one port or another
    refine iff_of_false Bool.false_ne_true fun hall => ?_
    have h1 := hall 1 ⟨by decide, .inr rfl⟩
    have h2 := hall 2 ⟨by decide, .inr rfl⟩
    rw [h1] at h2
    cases h2
  · simp only [beq_iff_eq, Option.some.injEq]
    constructor
    · rintro hn p ⟨-, rfl | hp⟩
      · exact hn
      · cases hp
    · intro hall
      exact hall (n + 1) ⟨Nat.succ_ne_zero n, .inl rfl⟩

/-- Does a config leave no port to the system? -/
def fixedPorts (cfg : Config) : Bool :=
  portNumber cfg.port != some 0 && (cfg.httpHost.isEmpty || portNumber cfg.httpPort != some 0)

/-- Does a config name the ports that the listeners accept on already? -/
def keepsPorts (cfg : Config) (s : Pair Str) : Bool :=
  fixedPorts cfg && names cfg.port s.primary && s.secondary.all (names cfg.httpPort ·)

theorem portOf_append {host port : Str} (hp : 58 ∉ port) : portOf (host ++ str ":" ++ port) = portNumber port := by
  have hcolon : host ++ str ":" ++ port = host ++ 58 :: port := by
    rw [show str ":" = [58] by decide, List.append_assoc, List.singleton_append]
  rw [portOf, hcolon, rsplitOnce_append hp]
  rfl

theorem names_of_fixed {port addr : Str} (ha : portOf addr = portNumber port) (hfixed : portNumber port ≠ some 0) :
    names port addr = true := by
  unfold names
  rw [ha]
  rcases hn : portNumber port with _ | _ | n
  · rfl
  · exact absurd hn hfixed
  · simp

/-- What a config wants its listeners to accept on is what it names. -/
theorem names_wanted {cfg : Config} (hc : cfg.Clean) (hfixed : fixedPorts cfg = true) :
    names cfg.port (wantedAddrs cfg).1 = true ∧ ∀ addr, (wantedAddrs cfg).2 = some addr → names cfg.httpPort addr = true := by
  simp only [fixedPorts, Bool.and_eq_true, Bool.or_eq_true, bne_iff_ne] at hfixed
  refine ⟨names_of_fixed (portOf_append hc.ports.1) hfixed.1, fun addr haddr => ?_⟩
  unfold wantedAddrs at haddr
  split at haddr
  · cases haddr
  · rename_i hhost
    cases haddr
    exact names_of_fixed (portOf_append hc.ports.2) (hfixed.2.resolve_left hhost)

/-! ## States -/

/-- The host table carries the ports of the accepted config, which leaves none to the system, and the sockets accept on
them. -/
structure Named (w : Watcher) : Prop where
  untorn : Untorn w
  httpsPort : w.live.runtime.vhosts.httpsPort = w.live.vhostsFrom.cfg.port
  httpPort : w.live.runtime.vhosts.httpPort = w.live.vhostsFrom.cfg.httpPort
  kept : keepsPorts w.live.vhostsFrom.cfg w.sockets = true

theorem Named.fixed {w : Watcher} (hw : Named w) : fixedPorts w.live.vhostsFrom.cfg = true := by
  have hkept := hw.kept
  simp only [keepsPorts, Bool.and_eq_true] at hkept
  exact hkept.1.1

theorem Named.namesPorts {w : Watcher} (hw : Named w) : NamesPorts w.live.runtime.vhosts w.sockets := by
  have hkept := hw.kept
  simp only [keepsPorts, Bool.and_eq_true, Option.all_eq_true] at hkept
  constructor
  · rw [hw.httpsPort]
    exact names_iff.1 hkept.1.2
  · rw [hw.httpPort]
    exact fun addr haddr => names_iff.1 (hkept.2 addr haddr)

theorem Named.same {w w' : Watcher} (hw : Named w) (hs : SameListeners w w')
    (hhttps : w'.live.runtime.vhosts.httpsPort = w.live.runtime.vhosts.httpsPort)
    (hhttp : w'.live.runtime.vhosts.httpPort = w.live.runtime.vhosts.httpPort) : Named w' := by
  constructor
  · exact hs.untorn hw.untorn
  · rw [hhttps, hs.vhostsFrom]
    exact hw.httpsPort
  · rw [hhttp, hs.vhostsFrom]
    exact hw.httpPort
  · rw [hs.vhostsFrom, hs.sameLoops.sockets]
    exact hw.kept

/-- Sockets that are each where they were, or where the accepted config wants them, still accept on its ports. -/
theorem Named.moved {w w' : Watcher} (hw : Named w) (hu : Untorn w') (hlive : w'.live = w.live)
    (hprimary : w'.sockets.primary = w.sockets.primary ∨ w'.sockets.primary = w.wanted.primary)
    (hsecondary : w'.sockets.secondary = w.sockets.secondary ∨ w'.sockets.secondary = w.wanted.secondary) : Named w' := by
  obtain ⟨hwant, hwant'⟩ := names_wanted (parseConfig_clean w.live.vhostsFrom.parsed) hw.fixed
  refine ⟨hu, by rw [hlive]; exact hw.httpsPort, by rw [hlive]; exact hw.httpPort, ?_⟩
  have hkept := hw.kept
  simp only [keepsPorts, Bool.and_eq_true, Option.all_eq_true] at hkept ⊢
  rw [hlive]
  refine ⟨⟨hkept.1.1, ?_⟩, ?_⟩
  · rcases hprimary with he | he
    · rw [he]
      exact hkept.1.2
    · rw [he]
      exact hwant
  · rcases hsecondary with he | he
    · rw [he]
      exact hkept.2
    · rw [he]
      exact hwant'

/-! ## Ticks -/

/-- The config that a tick accepts: its inputs ask for a full reload, the file loads, and both halves build. -/
def accepted (h : Nat → World) (c : Crates) (w : Watcher) (i : Nat) : Option Config :=
  let r := (readInputs w).run h i
  match (h r.next).load w.configPath with
  | .error _ => none
  | .ok cfg =>
    let s := (sample w.configPath cfg.cfg : Watch Sampled).run h (r.next + 1)
    let b := (buildRuntime c cfg.cfg w.buildSeq : Watch _).run h s.next
    if takesReload w r.value && b.value.1.toOption.isSome then some cfg.cfg else none

theorem reload_named {w w0 : Watcher} {r : Readings} {j : Nat} (hw : Named w0) (hcore : SameCore w w0)
    (hsame : SameLoops w w0) (hread : (readInputs w).run h i = ⟨r, j, []⟩) (htakes : takesReload w r = true)
    (hkeep : ∀ cfg, accepted h c w i = some cfg → keepsPorts cfg w.sockets = true) :
    Obs.Holds h (fun _ p => Named p.watcher) (reload c w0 r.cfgNow r.tlsNow) j fun a _ => Named a.watcher := by
  refine reload_holds (fun seq e k _ => ?_) fun cfg s rt seq order applied last k l m hload hsample hbuild _ _ _ _ => ?_
  · exact hw.same (by constructor <;> rfl) rfl rfl
  · have hfrom := ((buildRuntime_from w0.buildSeq k).of_run hbuild rt rfl).vhosts
    have hnamed : Named (w0.reloaded cfg s rt applied last r.cfgNow seq) := by
      refine ⟨hw.untorn.reloaded cfg s rt applied last r.cfgNow seq, hfrom.httpsPort, hfrom.httpPort, ?_⟩
      have haccepted : accepted h c w i = some cfg.cfg := by
        rw [hcore.configPath] at hload hsample
        rw [hcore.buildSeq] at hbuild
        simp only [accepted, hread, hload, hsample, hbuild, htakes]
        rfl
      have hsockets : (w0.reloaded cfg s rt applied last r.cfgNow seq).sockets = w0.sockets := by
        unfold Watcher.sockets Watcher.reloaded
        cases w0.http <;> rfl
      rw [hsockets, hsame.sockets]
      exact hkeep cfg.cfg haccepted
    exact ⟨hnamed, fun _ _ _ => hnamed⟩

theorem takeArm_named {w w0 : Watcher} {r : Readings} {j : Nat} (hw : Named w0) (hcore : SameCore w w0)
    (hsame : SameLoops w w0) (hread : (readInputs w).run h i = ⟨r, j, []⟩)
    (htakes : cfgChanged w0 r = true → takesReload w r = true)
    (hkeep : ∀ cfg, accepted h c w i = some cfg → keepsPorts cfg w.sockets = true) :
    Obs.Holds h (fun _ p => Named p.watcher) (takeArm c w0 r) j fun a _ => Named a.watcher := by
  unfold takeArm
  split
  · rename_i hcfg
    exact reload_named hw hcore hsame hread (htakes hcfg) hkeep
  · split
    · refine reloadTls_holds (fun e k _ => hw) fun cfg tls k _ _ _ => ?_
      have hrenewed : Named (w0.renewed cfg tls r.tlsNow) := hw.same (by constructor <;> rfl) rfl rfl
      exact ⟨hrenewed, hrenewed⟩
    · rw [Obs.holds_pure]
      exact hw

theorem reconcile_named {a : Armed} (ha : Named a.watcher) (i : Nat) :
    Obs.Holds h (fun _ _ => False) (reconcile a) i fun b _ => Named b.watcher := by
  refine reconcile_holds (fun _ => ha) (fun _ _ _ _ _ _ => ha) (fun x b e j hp _ _ _ => ?_) fun x y j k hp _ _ _ => ?_
  · have hwant := ha.untorn.pending _ hp
    refine ha.moved (ha.untorn.httpsAt hp) (httpsAt_core _ x).live (.inr ?_) (.inl ?_)
    · rw [httpsAt_sockets]
      exact congrArg Prod.fst hwant
    · rw [httpsAt_sockets]
  · have hdone := ha.untorn.done hp
    have hlive := (httpAt_core _ y).live.trans (httpsAt_core a.watcher x).live
    have hsockets := hdone.settled rfl
    have hwanted : ({ (a.watcher.httpsAt x).httpAt y with pending := none } : Watcher).wanted = a.watcher.wanted := by
      unfold Watcher.wanted
      simp only [hlive]
    rw [hwanted] at hsockets
    exact ha.moved hdone hlive (.inr (congrArg Pair.primary hsockets)) (.inr (congrArg Pair.secondary hsockets))

theorem tick_named {w : Watcher} (hw : Named w)
    (hkeep : ∀ cfg, accepted h c w i = some cfg → keepsPorts cfg w.sockets = true) :
    Obs.Holds h (fun _ p => NamesPorts p.watcher.live.runtime.vhosts p.watcher.sockets) (tick c w) i
      fun w' _ => Named w' := by
  obtain ⟨r, j, hread, -, -⟩ := readInputs_run h w i
  refine (tick_holds (I := fun _ p => Named p.watcher) (P := fun w' _ _ => Named w') (Q := fun w' _ => Named w')
    (R := fun w' _ => Named w') hread ?_ (fun w1 t k hP => ?_) fun w1 k hQ => ?_).mono
      (fun _ _ hI => hI.namesPorts) fun _ _ hQ => hQ
  · have hreset := resetBackoff_listeners w r.cfgNow r.tlsNow
    have hcore := resetBackoff_core w r.cfgNow r.tlsNow
    have hw0 : Named (resetBackoff w r.cfgNow r.tlsNow) := hw.same hreset (by rw [hcore.live]) (by rw [hcore.live])
    refine applyInputs_reconciles (Q := Named) (fun w1 w2 hs hcore hq => hq.same hs (by rw [hcore.live]) (by rw [hcore.live]))
      (fun hacts => ?_) (fun a k t _ _ hP => reconcile_named hP k) hw
    refine takeArm_named hw0 hcore hreset.sameLoops hread (fun hcfg => ?_) hkeep
    rw [cfgChanged_resetBackoff] at hcfg
    simp only [acts, Bool.and_eq_true] at hacts
    simp [takesReload, hacts.1, hcfg]
  · have hkept : Named { w1 with cfgLast := r.cfgNow, tlsLast := t, linksLast := r.linksNow } :=
      hP.same (by constructor <;> rfl) rfl rfl
    exact ⟨hkept, hkept⟩
  · refine scan_holds (P := fun _ w' _ => Named w') (fun _ _ => hQ) ?_ fun _ w' _ hP => ⟨hP, hP⟩
    intro order sigs targets l _ _ done t rest _ w' m _ hP
    refine scanSite_holds (fun seq failed n _ => hP.same (by constructor <;> rfl) rfl rfl) fun cache total seq _ _ => ?_
    have hrebuilt : Named (w'.rebuilt t.1.id cache (targetKey t) (scanned sigs t) seq) :=
      hP.same (by constructor <;> rfl) rfl rfl
    exact ⟨hrebuilt, hrebuilt⟩

theorem boot_named (hboot : ((h 0).load path).toOption.all (fun cfg => fixedPorts cfg.cfg) = true) :
    Obs.Holds h (fun _ p => NamesPorts p.watcher.live.runtime.vhosts p.watcher.sockets) (boot c path) 0
      fun x _ => ∀ w, x = .ok w → Named w := by
  refine boot_holds fun cfg s rt seq https http loops j k l hload _ hbuild _ _ _ hstarted => watchInit_holds ?_
  intro w order m _ _ _ hlive _ _ hopened
  have hfixed : fixedPorts cfg.cfg = true := by simpa [hload, Except.toOption] using hboot
  have hfrom := ((buildRuntime_from 0 j).of_run hbuild rt rfl).vhosts
  have huntorn := hopened.untorn hstarted hlive
  have hnamed : Named w := by
    obtain ⟨hprimary, hsecondary⟩ := names_wanted (parseConfig_clean cfg.parsed) hfixed
    refine ⟨huntorn, ?_, ?_, ?_⟩
    · rw [hlive]
      exact hfrom.httpsPort
    · rw [hlive]
      exact hfrom.httpPort
    · rw [huntorn.settled hopened.pending, Watcher.wanted, hlive]
      simp only [keepsPorts, Bool.and_eq_true, Option.all_eq_true]
      exact ⟨⟨hfixed, hprimary⟩, hsecondary⟩
  exact ⟨hnamed.namesPorts, hnamed⟩

/-- Over every boot and every number of ticks, whatever the binds do: while boot and every accepted reload leave no port
to the system, and every accepted reload names the ports that the listeners accept on already, every published host table
names the ports of the sockets it is published with. -/
theorem process_namesPorts (c : Crates) (path : Str) (h : Nat → World) (n : Nat)
    (hboot : ((h 0).load path).toOption.all (fun cfg => fixedPorts cfg.cfg) = true)
    (hkeep : EachTick c path h (fun w i => (accepted h c w i).all (keepsPorts · w.sockets) = true) n) :
    ∀ e ∈ ((process c path n).run h 0).trace, NamesPorts e.2.watcher.live.runtime.vhosts e.2.watcher.sockets := by
  refine (process_holds (boot_named hboot) (fun w i hw hk => tick_named hw fun cfg hcfg => ?_) hkeep).1
  simpa [hcfg] using hk

/-- A config of one redirecting host under some listen settings. -/
def portConf (settings : Str) : Str :=
  settings ++ str "site a.example \x7b\n cert = /c\n key = /k\n redirect /old/* -> /new/$1\n\x7d\n"

/-- Listen settings that are edited between boot and the first tick, on a machine where one address is taken. -/
def editedPorts (before after taken : Str) (k : Nat) : World :=
  { World.small (portConf (if k < 14 then before else after)) (if k < 14 then 1 else 2) 1 with
    bind := fun addr => if addr = taken then .error (str "address in use") else .ok () }

/-- The plain listener moves to another interface, on the same port. -/
theorem process_namesPorts_same : ((process anyPem confPath 2).run
      (editedPorts (str "listen = [::]:443\nlisten_http = [::]:80\n")
        (str "listen = [::]:443\nlisten_http = 127.0.0.1:80\n") []) 0).trace.length = 6 ∧
    ∀ e ∈ ((process anyPem confPath 2).run (editedPorts (str "listen = [::]:443\nlisten_http = [::]:80\n")
        (str "listen = [::]:443\nlisten_http = 127.0.0.1:80\n") []) 0).trace,
      NamesPorts e.2.watcher.live.runtime.vhosts e.2.watcher.sockets :=
  ⟨by decide +kernel, process_namesPorts anyPem confPath _ 2 (by decide +kernel) (eachTick_of_all (by decide +kernel))⟩

/-- An edit of the HTTPS port while the new one is taken: the table names a port that HTTPS does not accept on. -/
theorem table_names_taken_port : ¬ ∀ e ∈ ((process anyPem confPath 2).run
      (editedPorts (str "listen = [::]:443\n") (str "listen = [::]:8443\n") (str "[::]:8443")) 0).trace,
    NamesPorts e.2.watcher.live.runtime.vhosts e.2.watcher.sockets := by
  intro hall
  have hbad : (((process anyPem confPath 2).run
      (editedPorts (str "listen = [::]:443\n") (str "listen = [::]:8443\n") (str "[::]:8443")) 0).trace.any fun e =>
      !names e.2.watcher.live.runtime.vhosts.httpsPort e.2.watcher.https.addr) = true := by
    decide +kernel
  obtain ⟨e, he, hb⟩ := List.any_eq_true.1 hbad
  have hnames := names_iff.2 (hall e he).https
  simp only [Watcher.sockets] at hnames
  simp [hnames] at hb

end BareServer
