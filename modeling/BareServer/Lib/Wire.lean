/-
Writing to a stream that may fail. A call that fails may have taken part of what it was given, and the program ends
there. A program is described by what it writes and returns when every call succeeds; one that was cut short has
sent a prefix of that.
-/
import BareServer.Lib.Bytes

namespace BareServer.Lib

/-- A stream: what has been sent, whether a call has failed, and what becomes of the calls to come. `some n` breaks
the stream behind `n` more bytes; the calls past the end of the list succeed. -/
structure Wire where
  sent : Bytes
  failed : Bool
  fates : List (Option Nat)

/-- What has been sent since. -/
def Wire.since (w w' : Wire) : Bytes := w'.sent.drop w.sent.length

/-- A program that writes and ends where a call fails. -/
abbrev Io (α : Type) := OptionT (StateM Wire) α

section

variable {α β : Type}

/-- What a program returns, and the stream it leaves. -/
def Io.exec (m : Io α) (w : Wire) : Option α × Wire := StateT.run (OptionT.run m) w

/-! ## Calls -/

/-- A call that hands `data` over. -/
def writeAll (data : Bytes) : Io Unit := OptionT.mk fun w =>
  match w.fates with
  | some n :: fates =>
    if n < data.length then (none, ⟨w.sent ++ data.take n, true, fates⟩) else (some (), ⟨w.sent ++ data, w.failed, fates⟩)
  | fates => (some (), ⟨w.sent ++ data, w.failed, fates.tail⟩)

/-- A call that hands nothing over, and fails on a broken stream. -/
def flush : Io Unit := OptionT.mk fun w =>
  match w.fates with
  | some _ :: fates => (none, ⟨w.sent, true, fates⟩)
  | fates => (some (), ⟨w.sent, w.failed, fates.tail⟩)

/-! ## What a program writes -/

/-- When its calls succeed, `m` writes `out` and returns `res`; when one fails, it has written a part of `out` and
returns nothing. -/
def Gives (m : Io α) (out : Bytes) (res : Option α) : Prop :=
  ∀ w, (∃ fates, fates <:+ w.fates ∧ m.exec w = (res, ⟨w.sent ++ out, w.failed, fates⟩)) ∨
    (∃ n, some n ∈ w.fates) ∧ ∃ part fates, part <+: out ∧ m.exec w = (none, ⟨w.sent ++ part, true, fates⟩)

theorem exec_bind (m : Io α) (f : α → Io β) (w : Wire) :
    (m >>= f).exec w = match m.exec w with
      | (some a, w') => (f a).exec w'
      | (none, w') => (none, w') := by
  unfold Io.exec
  rw [OptionT.run_bind, Option.elimM, StateT.run_bind]
  obtain ⟨_ | a, w'⟩ := StateT.run (OptionT.run m) w <;> rfl

theorem gives_pure (a : α) : Gives (pure a) [] (some a) :=
  fun w => .inl ⟨w.fates, List.suffix_refl _, by rw [List.append_nil]; rfl⟩

theorem gives_failure : Gives (failure : Io α) [] none :=
  fun w => .inl ⟨w.fates, List.suffix_refl _, by rw [List.append_nil]; rfl⟩

theorem gives_writeAll (data : Bytes) : Gives (writeAll data) data (some ()) := by
  intro w
  obtain ⟨sent, failed, fates⟩ := w
  rcases fates with _ | ⟨_ | n, fates⟩
  · exact .inl ⟨[], List.suffix_refl _, rfl⟩
  · exact .inl ⟨fates, List.suffix_cons _ _, rfl⟩
  · by_cases hn : n < data.length
    · exact .inr ⟨⟨n, List.mem_cons_self⟩, data.take n, fates, List.take_prefix _ _, if_pos hn⟩
    · exact .inl ⟨fates, List.suffix_cons _ _, if_neg hn⟩

theorem gives_flush : Gives flush [] (some ()) := by
  intro w
  obtain ⟨sent, failed, fates⟩ := w
  have hsent : sent ++ [] = sent := List.append_nil sent
  rcases fates with _ | ⟨_ | n, fates⟩
  · exact .inl ⟨[], List.suffix_refl _, by rw [hsent]; rfl⟩
  · exact .inl ⟨fates, List.suffix_cons _ _, by rw [hsent]; rfl⟩
  · exact .inr ⟨⟨n, List.mem_cons_self⟩, [], fates, List.nil_prefix, by rw [hsent]; rfl⟩

variable {m : Io α} {f : α → Io β} {out out' : Bytes} {a : α} {res : Option β}

theorem Gives.bind (h : Gives m out (some a)) (h' : Gives (f a) out' res) : Gives (m >>= f) (out ++ out') res := by
  intro w
  rw [exec_bind]
  rcases h w with ⟨fates, hfates, hexec⟩ | ⟨hfate, part, fates, hpart, hexec⟩
  · rw [hexec]
    rcases h' ⟨w.sent ++ out, w.failed, fates⟩ with ⟨fates', hfates', hexec'⟩ | ⟨⟨n, hn⟩, part, fates', hpart, hexec'⟩
    · exact .inl ⟨fates', hfates'.trans hfates, hexec'.trans (by rw [List.append_assoc])⟩
    · exact .inr ⟨⟨n, hfates.subset hn⟩, out ++ part, fates', (List.prefix_append_right_inj out).2 hpart,
        hexec'.trans (by rw [List.append_assoc])⟩
  · exact .inr ⟨hfate, part, fates, hpart.trans (List.prefix_append _ _), by rw [hexec]⟩

theorem Gives.bind_none (h : Gives m out none) (f : α → Io β) : Gives (m >>= f) out none := by
  intro w
  rw [exec_bind]
  rcases h w with ⟨fates, hfates, hexec⟩ | ⟨hfate, part, fates, hpart, hexec⟩
  · exact .inl ⟨fates, hfates, by rw [hexec]⟩
  · exact .inr ⟨hfate, part, fates, hpart, by rw [hexec]⟩

theorem gives_message (data : Bytes) : Gives (do writeAll data; flush) data (some ()) := by
  have h := (gives_writeAll data).bind (f := fun _ => flush) gives_flush
  rwa [List.append_nil] at h

theorem gives_answer (data : Bytes) (b : β) : Gives (do writeAll data; flush; return b) data (some b) := by
  have h := (gives_writeAll data).bind (f := fun _ => do flush; return b) (gives_flush.bind (gives_pure b))
  rwa [List.append_nil, List.append_nil] at h

theorem Gives.returning (h : Gives m out (some a)) (b : β) : Gives (do let _ ← m; return b) out (some b) := by
  have h' := h.bind (f := fun _ => pure b) (gives_pure b)
  rwa [List.append_nil] at h'

theorem Gives.unbroken {res : Option α} (h : Gives m out res) {w : Wire} (hw : ∀ n, some n ∉ w.fates) :
    ∃ fates, fates <:+ w.fates ∧ m.exec w = (res, ⟨w.sent ++ out, w.failed, fates⟩) := by
  rcases h w with h | ⟨⟨n, hn⟩, -⟩
  · exact h
  · exact absurd hn (hw n)

/-- What a program has sent and returned on a stream that had not failed, read off the stream it leaves. -/
theorem Gives.since {res r : Option α} {w w' : Wire} (h : Gives m out res) (hexec : m.exec w = (r, w'))
    (hw : w.failed = false) : w'.sent = w.sent ++ w.since w' ∧ (w'.failed = false → w.since w' = out ∧ r = res) ∧
      (w'.failed = true → w.since w' <+: out ∧ r = none) := by
  unfold Wire.since
  rcases h w with ⟨fates, -, h⟩ | ⟨-, part, fates, hpart, h⟩
  · cases hexec.symm.trans h
    rw [List.drop_left]
    refine ⟨rfl, fun _ => ⟨rfl, rfl⟩, fun hfailed => ?_⟩
    rw [show w.failed = true from hfailed] at hw
    cases hw
  · cases hexec.symm.trans h
    rw [List.drop_left]
    exact ⟨rfl, (fun hfailed => by cases hfailed), fun _ => ⟨hpart, rfl⟩⟩

end

end BareServer.Lib
