/-
One site's redirect rules (`config.rs`, `Redirects`): expansion of a target template, recording of
a rule with every rejection, and resolution of a request path.
-/
import BareServer.Lib.Bytes
import BareServer.Lib.Map

namespace BareServer

open BareServer.Lib

/-- `exact` matches the whole path; `prefixes` holds `/docs/` for `/docs/*`, longest first once
`finish` has run; `all` is the catch-all. -/
structure Redirects where
  exact : Map Str Str
  prefixes : List (Str × Str)
  all : Option Str

instance : Inhabited Redirects := ⟨⟨∅, [], none⟩⟩

/-! ## Expansion -/

/-- The loop of `expand`: `$0` is the path, `$1` the capture, `$$` a dollar; any other `$` stays. -/
def expandFrom (path cap : Str) : Str → Str
  | [] => []
  | 36 :: 48 :: t => path ++ expandFrom path cap t
  | 36 :: 49 :: t => cap ++ expandFrom path cap t
  | 36 :: 36 :: t => 36 :: expandFrom path cap t
  | c :: t => c :: expandFrom path cap t

def expand (template path cap : Str) : Str :=
  if !template.contains 36 then template else expandFrom path cap template

/-- Is the target an absolute URL? -/
def isAbsolute (target : Str) : Bool :=
  (str "http://").isPrefixOf target || (str "https://").isPrefixOf target

/-- Does the rule send the probe path back to itself, query and fragment aside? -/
def loopsForever (target probePath capture : Str) : Bool :=
  if isAbsolute target then false
  else ((expand target probePath capture).takeWhile fun b => b != 63 && b != 35) == probePath

/-- The digit of the first `$2` to `$9` of a template. -/
def unknownCapture : Str → Option UInt8
  | [] => none
  | 36 :: d :: t =>
    if d == 36 || d == 48 || d == 49 then unknownCapture t
    else if isDigit d then some d
    else unknownCapture (d :: t)
  | _ :: t => unknownCapture t

namespace Redirects

def isEmpty (r : Redirects) : Bool := r.exact.entries.isEmpty && r.prefixes.isEmpty && r.all.isNone

/-- The first rule of the prefix scan that matches, expanded. -/
def resolvePrefix (path : Str) : List (Str × Str) → Option Str
  | [] => none
  | (p, t) :: rest =>
    match p.isPrefixOf? path with
    | some cap => some (expand t path cap)
    | none => resolvePrefix path rest

/-- The target of a raw request path: exact rule, then prefix scan, then catch-all. -/
def resolve (r : Redirects) (path : Str) : Option Str :=
  match r.exact.lookup path with
  | some t => some (expand t path [])
  | none =>
    match resolvePrefix path r.prefixes with
    | some dest => some dest
    | none => r.all.map fun t => expand t path path

/-- The checks on a target that do not depend on the pattern. -/
def checkTarget (target : Str) : Except Str Unit :=
  if target.any isControl then
    .error (str "redirect: control characters are not allowed in a target")
  else if target.isEmpty then .error (str "redirect: empty target")
  else if !isAbsolute target && !(str "/").isPrefixOf target && !(str "$0").isPrefixOf target then
    .error (str "redirect: target must be an absolute http(s):// URL, a path starting with '/', or $0 (got: "
      ++ target ++ str ")")
  else
    match unknownCapture target with
    | some d => .error (str "redirect: unknown capture $" ++ [d] ++
        str " in target (only $0, the whole path, and $1, a /prefix/* remainder, exist)")
    | none => .ok ()

/-- `*`: the catch-all. -/
def pushAll (r : Redirects) (target : Str) : Except Str Redirects :=
  if loopsForever target (str "/probe") (str "/probe") then
    .error (str "redirect: '* -> $0' redirects every path to itself")
  else if r.all.isSome then
    .error (str "redirect: duplicate '*' rule (a site has at most one catch-all)")
  else .ok { r with all := some target }

/-- `/some/prefix/*`, given as the text before the `*`. -/
def pushPrefix (r : Redirects) (pattern pre target : Str) : Except Str Redirects :=
  if pre.contains 42 || !(str "/").isSuffixOf pre then
    .error (str "redirect: '*' is only allowed as a trailing /prefix/* (got: " ++ pattern ++ str ")")
  else if loopsForever target (pre ++ str "probe") (str "probe") then
    .error (str "redirect: '" ++ pattern ++ str "' redirects every matching path to itself")
  else if r.prefixes.any (·.1 == pre) then .error (str "redirect: duplicate pattern: " ++ pattern)
  else .ok { r with prefixes := r.prefixes ++ [(pre, target)] }

/-- A whole path. -/
def pushExact (r : Redirects) (pattern target : Str) : Except Str Redirects :=
  if pattern.contains 42 then
    .error (str "redirect: '*' is only allowed as a trailing /prefix/* (got: " ++ pattern ++ str ")")
  else if loopsForever target pattern [] then
    .error (str "redirect: '" ++ pattern ++ str "' redirects to itself")
  else if containsStr target (str "$1") then
    .error (str "redirect: $1 has no value in the exact rule '" ++ pattern ++ str "' (use $0 for the whole path)")
  else if (r.exact.lookup pattern).isSome then .error (str "redirect: duplicate pattern: " ++ pattern)
  else .ok { r with exact := r.exact.insert pattern target }

/-- Record one `redirect <pattern> -> <target>` rule. -/
def push (r : Redirects) (pattern target : Str) : Except Str Redirects :=
  match checkTarget target with
  | .error e => .error e
  | .ok () =>
    if pattern == str "*" then r.pushAll target
    else if !(str "/").isPrefixOf pattern then
      .error (str "redirect: pattern must be a path starting with '/', or '*' for the whole host (got: "
        ++ pattern ++ str ")")
    else
      match (str "*").isSuffixOf? pattern with
      | some pre => r.pushPrefix pattern pre target
      | none => r.pushExact pattern target

/-- Longest prefix first; the sort is stable. -/
def finish (r : Redirects) : Redirects :=
  { r with prefixes := r.prefixes.insertionSort fun a b => b.1.length ≤ a.1.length }

end Redirects
end BareServer
