/-
How a config file is laid out: what each line says by itself, the top-level assignments, and the
blocks. An accepted file means what its layout says: a site is a function of its own block and the
top-level assignments, wherever these stand.
-/
import BareServer.Config.Parse
import BareServer.Config.Shared

namespace BareServer

open BareServer.Lib

/-! ## Lines -/

/-- What a line says, whatever stands around it. -/
inductive Line where
  | blank
  | close
  | site (rest : Str)
  | redirect (rest : Str)
  | assign (key value : Str)
  | malformed
  deriving DecidableEq

def lineOf (raw : Str) : Line :=
  let line := stripComment raw
  if line.isEmpty then .blank
  else if line == str "\x7d" then .close
  else
    match directive (str "site") line with
    | some rest => .site rest
    | none =>
      match directive (str "redirect") line with
      | some rest => .redirect rest
      | none =>
        match splitOnce line (str "=") with
        | none => .malformed
        | some (k, v) => .assign (trim k) (trim v)

/-- The end of a block: its rules are sorted. -/
def closeSite (st : ParseState) (n : Nat) : Except Str ParseState :=
  match st.cur with
  | none => .error (at' n (str "stray '\x7d' outside a site block"))
  | some site => .ok { st with cur := none, pending := st.pending ++ [{ site with redirects := site.redirects.finish }] }

/-- An assignment belongs to the open block, or to the top level. -/
def assignLine (st : ParseState) (n : Nat) (k v : Str) : Except Str ParseState :=
  match st.cur with
  | some site => siteSetting st site n k v
  | none => serverSetting st n k v

theorem parseLine_eq (st : ParseState) (n : Nat) (raw : Str) : parseLine st n raw =
    match lineOf raw with
    | .blank => .ok st
    | .close => closeSite st n
    | .site rest => openSite st n rest
    | .redirect rest => redirectLine st n rest
    | .assign k v => assignLine st n k v
    | .malformed => .error (at' n (str "malformed config line: " ++ stripComment raw)) := by
  unfold parseLine lineOf
  simp only
  split
  · rfl
  split
  · rfl
  cases directive (str "site") (stripComment raw) with
  | some rest => rfl
  | none =>
    cases directive (str "redirect") (stripComment raw) with
    | some rest => rfl
    | none =>
      cases splitOnce (stripComment raw) (str "=") with
      | some kv => rfl
      | none => rfl

/-! ## Layouts -/

/-- A block: its opening line after the word `site`, and the lines inside. -/
structure Block where
  header : Str
  body : List Line

def Block.add (b : Block) (line : Line) : Block := { b with body := b.body ++ [line] }

/-- The assignments of a block, in order. -/
def Block.assigns (b : Block) : List (Str × Str) :=
  b.body.filterMap fun
    | .assign k v => some (k, v)
    | _ => none

/-- The pattern and the target of a rule's line. -/
def ruleOf (rest : Str) : Option (Str × Str) := (splitOnce (trim rest) (str "->")).map fun pt => (trim pt.1, trim pt.2)

/-- The rules of a block, in order. -/
def Block.rules (b : Block) : List (Str × Str) :=
  b.body.filterMap fun
    | .redirect rest => ruleOf rest
    | _ => none

/-- The names a block opens with. -/
def Block.names (b : Block) : List Str :=
  ((((str "\x7b").isSuffixOf? (trim b.header)).getD []).splitOn 44).map (fun h => lower (trim h)) |>.filter fun h =>
    !h.isEmpty

/-- A file, or the part of it read so far. -/
structure Layout where
  top : List (Str × Str)
  blocks : List Block
  cur : Option Block

def Layout.empty : Layout := ⟨[], [], none⟩

def Layout.add (l : Layout) (line : Line) : Layout :=
  match line, l.cur with
  | .blank, _ => l
  | .site rest, _ => { l with cur := some ⟨rest, []⟩ }
  | .close, some b => { l with cur := none, blocks := l.blocks ++ [b] }
  | .assign k v, none => { l with top := l.top ++ [(k, v)] }
  | line, some b => { l with cur := some (b.add line) }
  | _, none => l

/-- The layout of some lines. -/
def layoutOf (ls : List Str) : Layout := ls.foldl (fun l raw => l.add (lineOf raw)) .empty

/-! ## Values -/

/-- The last value assigned to a key. -/
def lastOf (k : Str) (assigns : List (Str × Str)) : Option Str := (assigns.reverse.find? (·.1 == k)).map (·.2)

/-- The value a setting is last given. -/
def Shared.given (f : Shared) (assigns : List (Str × Str)) : Option f.Val :=
  (lastOf f.key assigns).bind fun v => (f.parse v).toOption

/-- The budget some top-level lines give. -/
def budgetOf (top : List (Str × Str)) : Nat :=
  ((lastOf (str "max_total_bytes") top).bind fun v => (parseSize (str "max_total_bytes") v).toOption).getD
    Tuning.default.maxTotalBytes

/-- An on/off value a block is last given. -/
def flagOf (k : Str) (assigns : List (Str × Str)) (default : Bool) : Bool :=
  ((lastOf k assigns).bind fun v => (parseBool k v).toOption).getD default

@[simp] theorem lastOf_append (k : Str) (assigns : List (Str × Str)) (kv : Str × Str) :
    lastOf k (assigns ++ [kv]) = if kv.1 = k then some kv.2 else lastOf k assigns := by
  unfold lastOf
  rw [List.reverse_append, List.reverse_singleton, List.singleton_append, List.find?_cons]
  by_cases h : kv.1 = k
  · simp [h]
  · rw [beq_eq_false_iff_ne.2 h, if_neg h]

theorem Shared.given_append (f : Shared) (assigns : List (Str × Str)) (k v : Str) :
    f.given (assigns ++ [(k, v)]) = if k = f.key then (f.parse v).toOption else f.given assigns := by
  unfold Shared.given
  rw [lastOf_append]
  by_cases h : k = f.key
  · simp [h]
  · simp [h]

/-- Every value last given to a setting is one it can take. -/
def Parsed (assigns : List (Str × Str)) : Prop :=
  ∀ (f : Shared) v, lastOf f.key assigns = some v → ∃ x, f.parse v = .ok x

theorem parsed_nil : Parsed [] := nofun

theorem Parsed.append {assigns : List (Str × Str)} (h : Parsed assigns) {k v : Str}
    (hkv : ∀ f : Shared, k = f.key → ∃ x, f.parse v = .ok x) : Parsed (assigns ++ [(k, v)]) := by
  intro f v' hv
  rw [lastOf_append] at hv
  split at hv
  · rename_i hk
    cases hv
    exact hkv f hk
  · exact h f v' hv

/-- What a site is, by its block and the top-level assignments. Of each shared setting: the last value
in its own block, else the last at the top level, else the default. -/
structure SiteOf (top : List (Str × Str)) (b : Block) (s : SiteConfig) : Prop where
  hosts : s.hosts = b.names
  root : s.root = lastOf (str "root") b.assigns
  cert : lastOf (str "cert") b.assigns = some s.cert
  key : lastOf (str "key") b.assigns = some s.key
  forceSsl : s.forceSsl = flagOf (str "force_ssl") b.assigns true
  canonicalUrls : s.canonicalUrls = flagOf (str "canonical_urls") b.assigns false
  redirects : ∃ r, Redirects.pushLines default b.rules = .ok r ∧ s.redirects = r.finish
  shared : ∀ f : Shared, f.get (s.tuning, s.headers) =
    ((f.given b.assigns).or (f.given top)).getD (f.get (.default, .default))
  parsed : Parsed b.assigns ∧ Parsed top
  budget : s.tuning.maxTotalBytes = budgetOf top

/-- A block and the top-level assignments leave nothing open. -/
theorem SiteOf.unique {top : List (Str × Str)} {b : Block} {s s' : SiteConfig} (h : SiteOf top b s)
    (h' : SiteOf top b s') : s = s' := by
  obtain ⟨r, hr, hred⟩ := h.redirects
  obtain ⟨r', hr', hred'⟩ := h'.redirects
  rw [hr] at hr'
  cases hr'
  have hrecords : (s.tuning, s.headers) = (s'.tuning, s'.headers) :=
    Shared.records_ext (fun f => (h.shared f).trans (h'.shared f).symm) (h.budget.trans h'.budget.symm)
  have hcert := h.cert.symm.trans h'.cert
  have hkey := h.key.symm.trans h'.key
  have h1 := h.hosts.trans h'.hosts.symm
  have h2 := h.root.trans h'.root.symm
  have h3 := h.forceSsl.trans h'.forceSsl.symm
  have h4 := h.canonicalUrls.trans h'.canonicalUrls.symm
  have h5 := hred.trans hred'.symm
  obtain ⟨hosts, root, cert, key, forceSsl, canonicalUrls, redirects, tuning, headers⟩ := s
  obtain ⟨hosts', root', cert', key', forceSsl', canonicalUrls', redirects', tuning', headers'⟩ := s'
  simp only [Option.some.injEq, Prod.mk.injEq] at hcert hkey hrecords h1 h2 h3 h4 h5
  obtain ⟨ht, hh⟩ := hrecords
  subst h1 h2 h3 h4 h5 hcert hkey ht hh
  rfl

end BareServer
