/-
Whether reconciliation comes to an end: over a machine where an address can be bound exactly when nobody
holds it, from any listeners towards any wanted ones.
-/
import BareServer.Watch.Listeners

namespace BareServer

open BareServer.Lib

variable {h : Nat → World} {i : Nat} {F : Str → Prop}

/-! ## Free addresses -/

/-- A machine binds an address when no foreign socket holds it, and no accept loop that runs. -/
def BindsFree (F : Str → Prop) (world : World) (loops : Loops) : Prop :=
  ∀ addr, world.bind addr = .ok () ↔ ¬ F addr ∧ ∀ l ∈ loops.running, l.addr ≠ addr

/-- During a reconciliation the machine binds what is free: at its start, and once HTTPS is settled. -/
def Exclusive (F : Str → Prop) (h : Nat → World) (a : Armed) (i : Nat) : Prop :=
  BindsFree F (h i) a.watcher.loops ∧ ∀ x y j, a.watcher.pending = some (x, y) → HttpsSettles h a.watcher x i j →
    BindsFree F (h j) (a.watcher.httpsAt x).loops

/-- What is held by accept loops that run is held by the sockets. -/
theorem Serving.bindsFree {w : Watcher} (hw : Serving w) {world : World} :
    BindsFree F world w.loops ↔ ∀ addr, world.bind addr = .ok () ↔ Pair.Free F w.sockets addr := by
  have hheld : ∀ addr, (∀ l ∈ w.loops.running, l.addr ≠ addr) ↔ addr ∉ w.sockets.held := by
    intro addr
    simp only [hw.running.mem_iff, Pair.mem_held, Watcher.listening, Watcher.sockets, List.mem_cons,
      Option.mem_toList, Option.map_eq_some_iff]
    constructor
    · rintro hall (he | ⟨ctl, hctl, he⟩)
      · exact hall _ (.inl rfl) he.symm
      · exact hall _ (.inr ⟨ctl, hctl, rfl⟩) he
    · rintro hno l (rfl | ⟨ctl, hctl, rfl⟩) he
      · exact hno (.inl he.symm)
      · exact hno (.inr ⟨ctl, hctl, he⟩)
  simp only [BindsFree, Pair.Free, hheld]

theorem reconcile_serving {a : Armed} (ha : Serving a.watcher) (i : Nat) :
    Obs.Holds h (fun _ _ => False) (reconcile a) i fun b _ => Serving b.watcher :=
  reconcile_holds (fun _ => ha) (fun _ _ _ _ _ _ => ha) (fun x _ _ _ _ _ _ _ => ha.httpsAt x)
    fun x y _ _ _ _ _ _ => (ha.httpsAt x).httpAt y

/-! ## Attempts -/

/-- The listeners are as wanted and nothing is pending. -/
def Arrived (want : Pair Str) (a : Armed) : Prop := a.watcher.pending = none ∧ a.watcher.sockets = want

/-- The listeners are where they were, and the wanted addresses are pending. -/
def Stuck (want s : Pair Str) (a : Armed) : Prop :=
  a.watcher.pending = some (want.primary, want.secondary) ∧ a.watcher.sockets = s

/-- One attempt settles everything, or HTTPS is blocked by the plain listener and nothing moves. -/
theorem reconcile_free {a : Armed} {want s : Pair Str} (hw : Serving a.watcher) (hs : Stuck want s a) (hx : ¬ F want.primary)
    (hy : ∀ b, want.secondary = some b → ¬ F b ∧ b ≠ want.primary) (hbind : Exclusive F h a i) :
    Obs.Holds h (fun _ _ => False) (reconcile a) i fun b _ => Serving b.watcher ∧
      (Pair.Blocked want s ∧ Stuck want s b ∨ ¬ Pair.Blocked want s ∧ Arrived want b) := by
  obtain ⟨hp, rfl⟩ := hs
  refine ((reconcile_serving hw i).and (reconcile_attempt hp i)).mono (fun _ _ hf => hf.1) ?_
  rintro b - ⟨hserving, settled, hattempt, hpending⟩
  refine ⟨hserving, ?_⟩
  have hfree : Pair.Attempt (Pair.Free F) want a.watcher.sockets b.watcher.sockets settled := by
    refine hattempt.congr (fun addr => ?_) fun hfirst addr => ?_
    · rw [← hw.bindsFree.1 hbind.1]
      simp [canBind, Watcher.sockets]
    · -- HTTPS settles at the moment of the second bind
      obtain ⟨j, hj⟩ : ∃ j, HttpsSettles h a.watcher want.primary i j := by
        rcases hfirst with he | hok
        · exact ⟨i, .inl ⟨he, rfl⟩⟩
        · by_cases he : a.watcher.https.addr = want.primary
          · exact ⟨i, .inl ⟨he, rfl⟩⟩
          · exact ⟨i + 1, .inr ⟨he, by simpa [canBind, Watcher.sockets] using hok, rfl⟩⟩
      have hsecond := (hw.httpsAt want.primary).bindsFree.1 (hbind.2 _ _ j hp hj) addr
      rw [httpsAt_sockets] at hsecond
      rw [hj.canBind, hsecond]
  rcases hfree.free hx hy with ⟨hb, hsame, rfl⟩ | ⟨hb, hdone, rfl⟩
  · exact .inl ⟨hb, hpending, hsame⟩
  · exact .inr ⟨hb, hpending, hdone⟩

/-- Nothing pending, nothing done. -/
theorem reconcile_settled {a : Armed} {want : Pair Str} (ha : Arrived want a) :
    Obs.Holds h (fun _ _ => False) (reconcile a) i fun b _ => Arrived want b := by
  have hne : ∀ xy, a.watcher.pending ≠ some xy := fun xy hp => by
    rw [ha.1] at hp
    cases hp
  exact reconcile_holds (fun _ => ha) (fun _ _ _ hp => absurd hp (hne _)) (fun _ _ _ _ hp => absurd hp (hne _))
    fun _ _ _ _ hp => absurd hp (hne _)

/-- A blocked pair stays where it is, attempt after attempt. -/
theorem reconcile_stuck {a : Armed} {want s : Pair Str} (hb : Pair.Blocked want s) (hx : ¬ F want.primary)
    (hy : ∀ b, want.secondary = some b → ¬ F b ∧ b ≠ want.primary) (ha : Serving a.watcher ∧ Stuck want s a)
    (hbind : Exclusive F h a i) :
    Obs.Holds h (fun _ _ => False) (reconcile a) i fun b _ => Serving b.watcher ∧ Stuck want s b :=
  (reconcile_free ha.1 ha.2 hx hy hbind).post fun _ _ hq => ⟨hq.1, hq.2.elim (·.2) fun hn => absurd hb hn.1⟩

/-- Towards addresses that nobody else holds, any number of attempts ends as the first one does: with both listeners
where they are wanted, or, when HTTPS has to move to the address of the plain listener, with nothing moved. -/
theorem reconcile_converges (F : Str → Prop) (h : Nat → World) (a : Armed) (x : Str) (y : Option Str) (i n : Nat)
    (hw : Serving a.watcher) (hp : a.watcher.pending = some (x, y)) (hx : ¬ F x) (hy : ∀ b, y = some b → ¬ F b ∧ b ≠ x)
    (hbind : Obs.EachRound h reconcile (Exclusive F h) (n + 1) a i) :
    (¬ Pair.Blocked ⟨x, y⟩ a.watcher.sockets → Arrived ⟨x, y⟩ ((Obs.repeatN reconcile (n + 1) a).run h i).value) ∧
    (Pair.Blocked ⟨x, y⟩ a.watcher.sockets →
      Stuck ⟨x, y⟩ a.watcher.sockets ((Obs.repeatN reconcile (n + 1) a).run h i).value) := by
  have hs : Stuck ⟨x, y⟩ a.watcher.sockets a := ⟨hp, rfl⟩
  have hfirst := reconcile_free hw hs hx hy hbind.1
  constructor
  · intro hb
    have hrun : Obs.Holds h (fun _ _ => False) (Obs.repeatN reconcile (n + 1) a) i fun b _ => Arrived ⟨x, y⟩ b := by
      rw [Obs.repeatN]
      refine hfirst.bind fun b k hq => ?_
      have hsettled := hq.2.elim (fun hn => absurd hn.1 hb) (·.2)
      exact Obs.holds_repeatN (C := fun _ _ => True) (fun _ _ hs _ => reconcile_settled hs) n b k hsettled
        (.of_forall (fun _ _ => trivial) _ _ _)
    exact hrun.2
  · intro hb
    have hrun : Obs.Holds h (fun _ _ => False) (Obs.repeatN reconcile (n + 1) a) i
        fun b _ => Serving b.watcher ∧ Stuck ⟨x, y⟩ a.watcher.sockets b :=
      Obs.holds_repeatN (fun _ _ hs hc => reconcile_stuck hb hx hy hs hc) (n + 1) a i ⟨hw, hs⟩ hbind
    exact hrun.2.2

/-! ## Two machines -/

/-- A machine where some addresses are held. -/
def holding (held : List Str) : World :=
  { World.empty with bind := fun addr => if addr ∈ held then .error (str "address in use") else .ok () }

theorem holding_free (loops : Loops) : BindsFree (fun _ => False) (holding (loops.running.map (·.addr))) loops := by
  intro addr
  simp only [holding, List.mem_map]
  split
  · rename_i hheld
    obtain ⟨l, hl, he⟩ := hheld
    exact ⟨nofun, fun hno => absurd he (hno.2 l hl)⟩
  · rename_i hfree
    exact ⟨fun _ => ⟨not_false, fun l hl he => hfree ⟨l, hl, he⟩⟩, fun _ => rfl⟩

/-- A watcher with both listeners on, and other addresses pending. -/
def Watcher.towards (w : Watcher) (https http x : Str) (y : Option Str) : Watcher :=
  { w with
    https := ⟨https, 0, 8, str "HTTPS"⟩
    http := some ⟨http, 1, 8, str "HTTP"⟩
    loops := ⟨[⟨0, https⟩, ⟨1, http⟩], 2⟩
    pending := some (x, y) }

theorem towards_serving (w : Watcher) (https http x : Str) (y : Option Str) : Serving (w.towards https http x y) :=
  ⟨.refl _, by simp [Watcher.towards, Watcher.listening, ListenerCtl.loop],
    by simp [Watcher.towards, Watcher.listening, ListenerCtl.loop]⟩

theorem exists_watcher : Nonempty Watcher := by
  have hboot : ((boot anyPem confPath).run (fun _ => .small (confOf [str "a.example"]) 1 1) 0).value.toOption.any
      (fun _ => true) = true := by
    decide +kernel
  obtain ⟨w, -, -⟩ := ok_of_any hboot
  exact ⟨w⟩

/-- HTTPS moves to a fresh port, and the plain listener to the one that HTTPS leaves. -/
theorem reconcile_converges_relay : ∃ (a : Armed) (h : Nat → World),
    a.watcher.sockets = ⟨str "[::]:443", some (str "[::]:80")⟩ ∧
    Arrived ⟨str "[::]:8443", some (str "[::]:443")⟩ ((Obs.repeatN reconcile 1 a).run h 0).value := by
  obtain ⟨w⟩ := exists_watcher
  let w := w.towards (str "[::]:443") (str "[::]:80") (str "[::]:8443") (some (str "[::]:443"))
  let h : Nat → World := fun k =>
    holding ((if k = 0 then w else w.httpsAt (str "[::]:8443")).loops.running.map (·.addr))
  have hmoves : w.https.addr ≠ str "[::]:8443" := by
    show str "[::]:443" ≠ _
    decide
  have hexclusive : Exclusive (fun _ => False) h ⟨w, 0, none⟩ 0 := by
    refine ⟨holding_free w.loops, fun x y j hp hj => ?_⟩
    obtain ⟨rfl, -⟩ : str "[::]:8443" = x ∧ some (str "[::]:443") = y := by
      simpa using (Option.some.inj hp : (str "[::]:8443", some (str "[::]:443")) = (x, y))
    rcases hj with ⟨he, -⟩ | ⟨-, -, rfl⟩
    · exact absurd he hmoves
    · exact holding_free _
  refine ⟨⟨w, 0, none⟩, h, rfl, (reconcile_converges (fun _ => False) h ⟨w, 0, none⟩ (str "[::]:8443") (some (str "[::]:443"))
    0 0 (towards_serving _ _ _ _ _) rfl not_false (fun b hb => ⟨not_false, ?_⟩) ⟨hexclusive, trivial⟩).1 fun hb => ?_⟩
  · cases hb
    decide
  · exact absurd hb.2 (by show some (str "[::]:80") ≠ some (str "[::]:8443"); decide)

/-- HTTPS is wanted where the plain listener is, and no plain listener any more: whatever the number of attempts, nothing
moves. -/
theorem takeover_never_settles : ∃ (a : Armed) (h : Nat → World),
    Serving a.watcher ∧ a.watcher.sockets = ⟨str "[::]:443", some (str "[::]:80")⟩ ∧
    a.watcher.pending = some (str "[::]:80", none) ∧
    ∀ n, Obs.EachRound h reconcile (Exclusive (fun _ => False) h) n a 0 ∧
      ((Obs.repeatN reconcile n a).run h 0).value.watcher.pending = some (str "[::]:80", none) := by
  obtain ⟨w⟩ := exists_watcher
  let w := w.towards (str "[::]:443") (str "[::]:80") (str "[::]:80") none
  let h : Nat → World := fun _ => holding (w.loops.running.map (·.addr))
  let want : Pair Str := ⟨str "[::]:80", none⟩
  have hserving : Serving w := towards_serving _ _ _ _ _
  have hblocked : Pair.Blocked want w.sockets := ⟨by show str "[::]:443" ≠ str "[::]:80"; decide, rfl⟩
  have hstart : Serving w ∧ Stuck want w.sockets ⟨w, 0, none⟩ := ⟨hserving, rfl, rfl⟩
  -- the machine binds what is free as long as nothing moves
  have hexclusive : ∀ (a : Armed) i, Serving a.watcher ∧ Stuck want w.sockets a → Exclusive (fun _ => False) h a i := by
    rintro a i ⟨ha, hp, hs⟩
    have hfree : BindsFree (fun _ => False) (h i) a.watcher.loops := by
      rw [ha.bindsFree, hs, ← hserving.bindsFree]
      exact holding_free w.loops
    refine ⟨hfree, fun x y j hp' hj => ?_⟩
    obtain ⟨rfl, -⟩ : want.primary = x ∧ want.secondary = y := by simpa [hp] using hp'
    have hsecondary := hblocked.2
    rw [← hs] at hsecondary
    have hprimary := hblocked.1
    rw [← hs] at hprimary
    rcases hj with ⟨he, -⟩ | ⟨-, hok, -⟩
    · exact absurd he hprimary
    · exact absurd (Pair.mem_held.2 (.inr hsecondary)) ((ha.bindsFree.1 hfree _).1 hok).2
  have hstep : ∀ (a : Armed) i, Serving a.watcher ∧ Stuck want w.sockets a →
      Obs.Holds h (fun _ _ => False) (reconcile a) i fun b _ => Serving b.watcher ∧ Stuck want w.sockets b :=
    fun a i ha => reconcile_stuck hblocked not_false nofun ha (hexclusive a i ha)
  refine ⟨⟨w, 0, none⟩, h, hserving, rfl, rfl, fun n => ⟨?_, ?_⟩⟩
  · exact Obs.EachRound.imp (C := fun _ _ => True) (fun a i ha _ => ⟨hexclusive a i ha, (hstep a i ha).2⟩) n _ _ hstart
      (.of_forall (fun _ _ => trivial) _ _ _)
  · have hrun := Obs.holds_repeatN (C := fun _ _ => True) (fun a i ha _ => hstep a i ha) n ⟨w, 0, none⟩ 0 hstart
      (.of_forall (fun _ _ => trivial) _ _ _)
    exact hrun.2.2.1

end BareServer
