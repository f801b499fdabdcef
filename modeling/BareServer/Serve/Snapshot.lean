/-
A body streamed from its snapshot file: when what follows a header is as long as the header states,
whatever the file holds by then.
-/
import BareServer.Serve.Persistence

namespace BareServer

open BareServer.Lib

/-! ## Streaming -/

/-- The file ends, without a failed read before, after fewer than `n` bytes. -/
def EndsShort (n : Nat) (reads : List (Option Bytes)) : Prop :=
  ∃ (chunks : List Bytes) (rest : List (Option Bytes)), reads = chunks.map some ++ rest ∧ chunks.flatten.length < n ∧
    (rest = [] ∨ rest.head? = some (some []))

theorem streamBody_length (n : Nat) (reads : List (Option Bytes)) : (streamBody n reads).1.length ≤ n := by
  fun_induction streamBody n reads with
  | case1 => exact Nat.le_refl _
  | case2 => exact Nat.zero_le _
  | case3 => exact Nat.zero_le _
  | case4 => exact Nat.zero_le _
  | case5 n chunk reads hne out ok heq ih =>
    rw [heq] at ih
    simp only at ih ⊢
    rw [List.length_append, List.length_take]
    omega

/-- One more piece of a file that goes on. -/
theorem endsShort_cons {n : Nat} {chunk : Bytes} {reads : List (Option Bytes)} (hne : chunk ≠ []) :
    EndsShort n (some chunk :: reads) ↔ EndsShort (n - chunk.length) reads := by
  constructor
  · rintro ⟨chunks, rest, heq, hlt, hend⟩
    rcases chunks with _ | ⟨chunk', chunks⟩
    · subst heq
      rcases hend with h | h
      · cases h
      · exact absurd (Option.some.inj (Option.some.inj h)) hne
    · obtain ⟨hc, rfl⟩ := List.cons.inj heq
      cases hc
      refine ⟨chunks, rest, rfl, ?_, hend⟩
      rw [List.flatten_cons, List.length_append] at hlt
      omega
  · rintro ⟨chunks, rest, rfl, hlt, hend⟩
    refine ⟨chunk :: chunks, rest, rfl, ?_, hend⟩
    rw [List.flatten_cons, List.length_append]
    omega

/-- The copy succeeds with fewer bytes than it was asked for exactly when the file ends short. -/
theorem streamBody_short (n : Nat) (reads : List (Option Bytes)) :
    ((streamBody n reads).2 = true ∧ (streamBody n reads).1.length ≠ n) ↔ EndsShort n reads := by
  fun_induction streamBody n reads with
  | case1 =>
    refine ⟨fun h => absurd rfl h.2, ?_⟩
    rintro ⟨_, _, _, hlt, _⟩
    exact absurd hlt (Nat.not_lt_zero _)
  | case2 n => exact ⟨fun _ => ⟨[], [], rfl, Nat.succ_pos n, .inl rfl⟩, fun _ => ⟨rfl, Nat.ne_of_lt (Nat.succ_pos n)⟩⟩
  | case3 n reads =>
    refine ⟨fun h => Bool.noConfusion h.1, ?_⟩
    rintro ⟨_ | ⟨_, _⟩, rest, heq, -, hend⟩
    · subst heq
      rcases hend with h | h
      · cases h
      · cases Option.some.inj h
    · cases heq
  | case4 n chunk reads hempty =>
    rw [List.isEmpty_iff] at hempty
    subst hempty
    exact ⟨fun _ => ⟨[], _, rfl, Nat.succ_pos n, .inr rfl⟩, fun _ => ⟨rfl, Nat.ne_of_lt (Nat.succ_pos n)⟩⟩
  | case5 n chunk reads hne out ok heq ih =>
    have hle := streamBody_length (n + 1 - chunk.length) reads
    have hchunk : chunk ≠ [] := fun h => hne (List.isEmpty_iff.2 h)
    rw [endsShort_cons hchunk, ← ih, heq]
    rw [heq] at hle
    simp only [List.length_append, List.length_take] at hle ⊢
    -- what the piece leaves to send is sent by the rest
    have hsum : min (n + 1) chunk.length + out.length = n + 1 ↔ out.length = n + 1 - chunk.length := by omega
    rw [ne_eq, ne_eq, hsum]

/-! ## Entries -/

/-- The body is as long as the header states; a 304 states nothing and has none. -/
def Synced (out : Bytes) : Prop :=
  ∃ body, Response.bodyOf out = some body ∧
    (statusOf out = str "304" ∧ body = [] ∨ Response.valuesOf (str "content-length") out = [dec body.length])

section

variable {env : BuildEnv} {h : HeaderConfig} {url : Str} {data : Bytes} {bd : Path} {files files' : Files} {d : DiskEntry}

/-- Answering from the snapshot keeps a connection in step exactly when no answer that keeps it takes its body
from a file that ends short. -/
theorem serveDisk_synced (env : BuildEnv) (t : Tuning) (hc : Clean h.csp) (storage : Storage) (dir : Path)
    (hmade : makeDiskEntry env.compressors env.writes url (mimeFor url) data (.withHeaders t h storage dir) bd files =
      (some d, files')) (fs : FileSys) (acceptEnc inm : Str) (keepAlive : Bool) :
    let reply := serveDisk fs d acceptEnc inm keepAlive false (.withHeaders t h storage dir)
    let v := pickVariant acceptEnc d.br d.gzip d.identity
    (reply.result = some true → Synced reply.out) ↔
      ¬ (keepAlive = true ∧ notModified inm v.etag = false ∧
        ∃ reads, fs.snapshot v.path = some reads ∧ EndsShort v.len reads) := by
  have hp : PolicyOf h (.withHeaders t h storage dir) := policyOf_withHeaders _ _ _ _
  generalize Policy.withHeaders t h storage dir = p at hp hmade
  have hd : d = diskEntry env.compressors url (mimeFor url) data p bd := by
    have hentry := (makeDiskEntry_made env url (mimeFor url) data p bd files).entry
    rw [hmade] at hentry
    simp only at hentry
    split at hentry
    · exact Option.some.inj hentry
    · cases hentry
  subst hd
  obtain ⟨ns, -, hpick, hserve⟩ := serveDisk_diskEntry (c := env.compressors) hp (rfl : mimeFor url = _) fs data bd acceptEnc
    inm keepAlive false
  simp only [hpick, hserve, diskVariant, Bool.or_false]
  generalize hb : chosenBody env.compressors (mimeFor url) data p acceptEnc = b
  have hbody := fun content => @fileResponse_body h keepAlive false env.compressors data p url acceptEnc inm content hc hp _ rfl
  have hlength := fun content =>
    (@fileResponse_fields h keepAlive false env.compressors data p url acceptEnc inm content hc hp).length
  simp only [hb] at hbody hlength
  cases hnm : notModified inm (etagFor b.1) with
  | true =>
    -- a 304 takes nothing from the file
    simp only [if_true, Bool.true_eq_false, false_and, and_false, not_false_eq_true, iff_true]
    intro _
    have := hbody []
    rw [hnm, if_pos rfl] at this
    exact ⟨[], this.2, .inl ⟨this.1, rfl⟩⟩
  | false =>
    simp only [hnm, Bool.false_eq_true, if_false] at hbody hlength ⊢
    cases hsnap : fs.snapshot (snapshotPath bd ns url) with
    | none => simp
    | some reads =>
      have hshort := streamBody_short b.1.length reads
      simp only
      generalize streamBody b.1.length reads = sent at hshort ⊢
      obtain ⟨body, ok⟩ := sent
      obtain ⟨hstatus, hout⟩ := hbody body
      have hsynced : Synced (fileResponse env.compressors (mimeFor url) data p h url acceptEnc inm keepAlive false body).render ↔
          body.length = b.1.length := by
        unfold Synced
        rw [hout, hlength body, hstatus]
        constructor
        · rintro ⟨_, ⟨⟩, ⟨hne, -⟩ | hlen⟩
          · exact absurd hne (by decide)
          · exact (dec_injective (List.cons.inj hlen).1).symm
        · exact fun hlen => ⟨body, rfl, .inr (by rw [hlen])⟩
      simp only [hsynced, Option.some.injEq, exists_eq_left', true_and, ← hshort]
      cases ok <;> cases keepAlive <;> simp

end

/-- The entry of a file of three bytes, whose snapshot gives these reads. -/
def pageEntry : DiskEntry := diskEntry ⟨fun d _ => d, fun d _ => d⟩ (str "/f") (mimeFor (str "/f")) (str "abc") pagePolicy (str "/snap/0")

def pageReads (reads : List (Option Bytes)) : FileSys := ⟨fun _ => some reads, fun _ => none, fun _ => none⟩

theorem makeDiskEntry_page : makeDiskEntry ⟨fun d _ => d, fun d _ => d⟩ (fun _ => true) (str "/f") (mimeFor (str "/f")) (str "abc")
    pagePolicy (str "/snap/0") ∅ = (some pageEntry, (∅ : Files).insert (snapshotPath (str "/snap/0") (str "identity") (str "/f")) (str "abc")) := by
  have hplain : compressVariants ⟨fun d _ => d, fun d _ => d⟩ (mimeFor (str "/f")) (str "abc") pagePolicy = (none, none) := by decide +kernel
  unfold makeDiskEntry pageEntry diskEntry
  rw [hplain]
  rfl

/-- A file in two pieces. -/
theorem serveDisk_synced_whole :
    let reply := serveDisk (pageReads [some (str "ab"), some (str "c")]) pageEntry [] [] true false pagePolicy
    reply.result = some true → Synced reply.out := by
  intro reply
  have hclean : Clean HeaderConfig.default.csp := by decide
  refine (serveDisk_synced ⟨⟨fun d _ => d, fun d _ => d⟩, fun _ => true, fun _ => true⟩ .default hclean .disk (str "/snap")
    makeDiskEntry_page (pageReads [some (str "ab"), some (str "c")]) [] [] true).2 ?_
  rintro ⟨-, -, reads, hreads, hshort⟩
  cases hreads
  exact ((streamBody_short _ _).2 hshort).2 (by decide +kernel)

/-- A file that lost its last byte: the connection is kept, and the client waits for that byte. -/
theorem serveDisk_synced_truncated :
    makeDiskEntry ⟨fun d _ => d, fun d _ => d⟩ (fun _ => true) (str "/f") (mimeFor (str "/f")) (str "abc") pagePolicy
        (str "/snap/0") ∅ =
      (some pageEntry, (∅ : Files).insert (snapshotPath (str "/snap/0") (str "identity") (str "/f")) (str "abc")) ∧
    let reply := serveDisk (pageReads [some (str "ab")]) pageEntry [] [] true false pagePolicy
    ¬ (reply.result = some true → Synced reply.out) := by
  refine ⟨makeDiskEntry_page, ?_⟩
  intro reply h
  have hresult : reply.result = some true := by decide +kernel
  have hbody : Response.bodyOf reply.out = some (str "ab") := by decide +kernel
  have hlength : Response.valuesOf (str "content-length") reply.out ≠ [dec (str "ab").length] := by decide +kernel
  have hstatus : statusOf reply.out ≠ str "304" := by decide +kernel
  obtain ⟨body, hb, hend⟩ := h hresult
  rw [hbody] at hb
  cases hb
  exact hend.elim (fun h => hstatus h.1) hlength

end BareServer
