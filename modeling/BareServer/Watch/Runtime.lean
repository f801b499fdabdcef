/-
Whether the two halves of the live runtime agree: one config text behind the host table and the
certificates, and a certificate for exactly the hosts of the table.
-/
import BareServer.Watch.Steps

namespace BareServer

open BareServer.Lib

variable {h : Nat → World} {c : Crates} {path : Str}

/-! ## The two halves -/

/-- The halves agree: one config text, and certificates for exactly the hosts that are served. -/
structure Agree (l : Live) : Prop where
  text : l.vhostsFrom.text = l.tlsFrom.text
  hosts : ∀ host, (l.runtime.vhosts.sites.lookup host).isSome ↔ (l.runtime.tls.byName.lookup host).isSome

/-- One config text, and each half is what the config says. -/
structure Joined (l : Live) : Prop where
  text : l.vhostsFrom.text = l.tlsFrom.text
  hosts : ∀ host, (l.runtime.vhosts.sites.lookup host).isSome ↔ ∃ s ∈ l.vhostsFrom.cfg.sites, host ∈ s.hosts
  names : NamesOf l.tlsFrom.cfg.sites l.runtime.tls.byName

theorem Loaded.cfg_eq {a b : Loaded} (h : a.text = b.text) : a.cfg = b.cfg := by
  have hb := b.parsed
  rw [← h, a.parsed] at hb
  exact Except.ok.inj hb

theorem Joined.agree {l : Live} (hl : Joined l) : Agree l := by
  refine ⟨hl.text, fun host => ?_⟩
  rw [hl.hosts, hl.names, Loaded.cfg_eq hl.text]

theorem RuntimeFrom.joined {rt : Runtime} {cfg : Loaded} (hr : RuntimeFrom c cfg.cfg rt) : Joined ⟨rt, cfg, cfg⟩ :=
  ⟨rfl, hr.vhosts.sites.isSome_iff, hr.names⟩

/-- New certificates from the text of the live table. -/
theorem Joined.renewed {l : Live} (hl : Joined l) {cfg : Loaded} {tls : ServerConfig}
    (ht : cfg.text = l.vhostsFrom.text) (hn : NamesOf cfg.cfg.sites tls.byName) :
    Joined ⟨⟨l.runtime.vhosts, tls⟩, l.vhostsFrom, cfg⟩ :=
  ⟨ht.symm, hl.hosts, hn⟩

/-- A rebuilt cache leaves the hosts as they are. -/
theorem Joined.setCache {l : Live} (hl : Joined l) (id : Nat) (cache : SiteCache) : Joined (l.setCache id cache) := by
  refine ⟨hl.text, fun host => ?_, hl.names⟩
  have hkeep : ((l.setCache id cache).runtime.vhosts.sites.lookup host).isSome =
      (l.runtime.vhosts.sites.lookup host).isSome := by
    simp [Live.setCache, Sites.setCache]
  rw [hkeep]
  exact hl.hosts host

/-! ## Runs -/

/-- When a tick renews certificates only, the config file reads as the live table's config did, or there are no
certificates to be had for what it reads as. -/
def renewsSame (h : Nat → World) (c : Crates) (w : Watcher) (i : Nat) : Bool :=
  let o := (readInputs w).run h i
  !takesCerts w o.value ||
    ((h o.next).load w.configPath).toOption.all fun cfg => decide (cfg.text = w.live.vhostsFrom.text) ||
      ((buildTls c.rustls cfg.cfg : Watch _).run h (o.next + 1)).value.toOption.isNone

theorem scan_joined {w : Watcher} {i : Nat} (hw : Joined w.live) :
    Obs.Holds h (fun _ p => Agree p.watcher.live) (scan c w) i fun w' _ => Joined w'.live := by
  refine scan_holds (P := fun _ w' _ => Joined w'.live) (fun _ _ => hw) ?_ fun _ _ _ hP => hP
  intro order sigs targets j _ _ done t rest _ w' k _ hP
  refine scanSite_holds (fun _ _ _ _ => hP) fun cache total seq _ _ => ?_
  have hset : Joined (w'.live.setCache t.1.id cache) := hP.setCache _ _
  exact ⟨hset.agree, hset⟩

theorem tick_joined {w : Watcher} {i : Nat} (hw : Joined w.live) (hsame : renewsSame h c w i = true) :
    Obs.Holds h (fun _ p => Agree p.watcher.live) (tick c w) i fun w' _ => Joined w'.live := by
  obtain ⟨r, j, hread, -, -⟩ := readInputs_run h w i
  refine tick_holds (P := fun w' _ _ => Joined w'.live) (Q := fun w' _ => Joined w'.live) hread ?_
    (fun w1 t k hP => ⟨hP.agree, hP⟩) fun w1 k hQ => (scan_joined hQ).post fun w2 l hP => ⟨hP.agree, hP⟩
  refine applyInputs_holds (P := fun w' _ _ => Joined w'.live) (fun w1 w2 t j k hcore _ hP => ?_) ?_ ?_ fun _ _ => hw
  · rw [hcore.live]
    exact hP
  · intro _ w0 hcore
    refine reload_holds (fun seq e k _ => ?_) ?_
    · rw [hcore.live]
      exact hw
    · intro cfg s rt seq order applied last k l m _ _ hbuild _ _ _ _
      have hjoined : Joined ⟨rt, cfg, cfg⟩ := ((buildRuntime_from w0.buildSeq k).of_run hbuild rt rfl).joined
      exact ⟨hjoined.agree, fun _ _ _ => hjoined⟩
  · intro hcerts w0 hcore
    refine reloadTls_holds (fun e k _ => ?_) fun cfg tls k hload hbuild _ => ?_
    · rw [hcore.live]
      exact hw
    · -- the arm read the live config again, so both halves still come from one text
      have htext : cfg.text = w.live.vhostsFrom.text := by
        rw [hcore.configPath] at hload
        simpa [renewsSame, hread, hcerts, hload, hbuild, Except.toOption] using hsame
      have hn := (buildTls_names _).of_run hbuild tls rfl
      have hjoined : Joined (w0.renewed cfg tls r.tlsNow).live := by
        unfold Watcher.renewed
        rw [hcore.live]
        exact hw.renewed htext hn
      exact ⟨hjoined.agree, hjoined⟩

theorem boot_joined (h : Nat → World) (c : Crates) (path : Str) :
    Obs.Holds h (fun _ p => Agree p.watcher.live) (boot c path) 0 fun x _ => ∀ w, x = .ok w → Joined w.live := by
  refine boot_holds fun cfg s rt seq https http loops j k l _ _ hbuild _ _ _ _ => watchInit_holds ?_
  intro w order m _ _ _ hlive _ _ _
  have hjoined : Joined w.live := by
    rw [hlive]
    exact ((buildRuntime_from 0 j).of_run hbuild rt rfl).joined
  exact ⟨hjoined.agree, hjoined⟩

/-- Over every boot and every number of ticks, whatever happens to the files in between: while each
certificate-only reload that installs finds the config text that the live sites came from, every state that is published
serves sites and certificates of one config text, and of the same hosts. -/
theorem process_agree (c : Crates) (path : Str) (h : Nat → World) (n : Nat)
    (hsame : EachTick c path h (fun w i => renewsSame h c w i = true) n) :
    ∀ e ∈ ((process c path n).run h 0).trace, Agree e.2.watcher.live :=
  (process_holds (P := fun w _ => Joined w.live) (boot_joined h c path) (fun _ _ => tick_joined) hsame).1

/-! ## A small machine -/

/-- A TLS library that takes any file as a certificate with its key, for every name. -/
def anyPem : Crates where
  compressors := ⟨fun b _ => b, fun b _ => b⟩
  rustls :=
    { certs := fun pem => .ok [pem]
      privateKey := fun pem => .ok (some pem)
      anySupportedType := some
      keysMatch := fun _ _ => .ok
      covers := fun _ _ _ => .ok ()
      safeDefaultVersions := .ok () }

def confPath : Str := str "/conf"

/-- A config file with its text and time, and PEM files of one time. -/
def World.small (text : Str) (edited renewed : Nat) : World :=
  { World.empty with
    info := fun p => some ⟨1, some (if p = confPath then edited else renewed)⟩
    text := fun p => if p = confPath then .ok text else .error []
    openFile := fun _ => .ok (dec renewed) }

/-- A config of redirecting hosts, all with one certificate. -/
def confOf (hosts : List Str) : Str :=
  str "listen = [::]:443\n" ++ hosts.flatMap fun host =>
    str "site " ++ host ++ str " \x7b\n cert = /c\n key = /k\n redirect /old/* -> /new/$1\n\x7d\n"

/-- Certificates renewed between boot and the first tick, under a config that stays. -/
def renewalOnly (k : Nat) : World := .small (confOf [str "a.example"]) 1 (if k < 14 then 1 else 2)

theorem process_agree_renewalOnly : ((process anyPem confPath 2).run renewalOnly 0).trace.length = 6 ∧
    ∀ e ∈ ((process anyPem confPath 2).run renewalOnly 0).trace, Agree e.2.watcher.live :=
  ⟨by decide +kernel, process_agree anyPem confPath renewalOnly 2 (eachTick_of_all (by decide +kernel))⟩

/-- The same renewal, with a host added to the config between the two ticks that see it. -/
def editDuringRenewal (k : Nat) : World :=
  .small (if k < 21 then confOf [str "a.example"] else confOf [str "a.example", str "b.example"])
    (if k < 21 then 1 else 2) (if k < 14 then 1 else 2)

/-- The second tick renews from the edited text: the new host has a certificate and no site. -/
theorem renewal_from_edited_config :
    ¬ ∀ e ∈ ((process anyPem confPath 2).run editDuringRenewal 0).trace, Agree e.2.watcher.live := by
  intro hall
  have hbad : (((process anyPem confPath 2).run editDuringRenewal 0).trace.any fun e =>
      !(e.2.watcher.live.runtime.vhosts.sites.lookup (str "b.example")).isSome &&
        (e.2.watcher.live.runtime.tls.byName.lookup (str "b.example")).isSome) = true := by
    decide +kernel
  obtain ⟨e, he, hb⟩ := List.any_eq_true.1 hbad
  have hagree := (hall e he).hosts (str "b.example")
  simp_all

end BareServer
