/-
The pure header and URL helpers of `main.rs`: content negotiation, conditional requests, the
percent codec, the canonical form of a path, host normalization and path resolution.
-/
import BareServer.Cache.Site

namespace BareServer

open BareServer.Lib

/-! ## Negotiation -/

/-- Is a weight zero: `0`, or `0.` and zeros? -/
def isZeroQ : Str → Bool
  | [48] => true
  | 48 :: 46 :: rest => rest.all (· == 48)
  | _ => false

/-- Whether the parameters of one coding leave it acceptable; the last weight decides. -/
def paramsAcceptable (acceptable : Bool) : List Str → Bool
  | [] => acceptable
  | param :: rest =>
    let param := trim param
    if ((getTo param 2).map fun p => eqIgnoreCase p (str "q=")).getD false then
      paramsAcceptable (!isZeroQ (trim (param.drop 2))) rest
    else paramsAcceptable acceptable rest

/-- The loop of `accepts_encoding`, with the wildcard entry seen so far. -/
def acceptsFrom (token : Str) (wildcard : Option Bool) : List Str → Bool
  | [] => wildcard.getD false
  | part :: rest =>
    let fields := part.splitOn 59
    let name := trim (fields.headD [])
    let acceptable := paramsAcceptable true fields.tail
    if eqIgnoreCase name token then acceptable
    else acceptsFrom token (if name == str "*" then some acceptable else wildcard) rest

/-- Does an `Accept-Encoding` field accept a coding? -/
def acceptsEncoding (field token : Str) : Bool := acceptsFrom token none (field.splitOn 44)

/-- One listed entity-tag without its weak mark and quotes. -/
def opaqueTag (t : Str) : Str :=
  let t := trim t
  let t := ((str "W/").isPrefixOf? t).getD t
  (((str "\"").isPrefixOf? t).bind ((str "\"").isSuffixOf? ·)).getD t

/-- Does an `If-None-Match` field list an entity-tag? -/
def inmMatches (field etag : Str) : Bool :=
  let field := trim field
  if field == str "*" then true else (field.splitOn 44).any fun t => opaqueTag t == etag

/-! ## Percent codec -/

def hexval (c : UInt8) : Option UInt8 :=
  if 48 ≤ c && c ≤ 57 then some (c - 48)
  else if 97 ≤ c && c ≤ 102 then some (c - 97 + 10)
  else if 65 ≤ c && c ≤ 70 then some (c - 65 + 10)
  else none

/-- Percent-decode; a malformed escape or a decoded control byte is refused. -/
def percentDecode : Str → Option Bytes
  | [] => some []
  | 37 :: hi :: lo :: t =>
    match hexval hi, hexval lo with
    | some h, some l => if isControl (h <<< 4 ||| l) then none else (percentDecode t).map ((h <<< 4 ||| l) :: ·)
    | _, _ => none
  | c :: t => if c == 37 || isControl c then none else (percentDecode t).map (c :: ·)

/-- The bytes a path carries unescaped: unreserved, sub-delims, `:`, `@` and the separator. -/
def isBare (b : UInt8) : Bool := isAlnum b || (str "-._~/!$&'()*+,;=:@").contains b

/-- An upper-case hexadecimal digit. -/
def hexDigit (n : UInt8) : UInt8 := if n < 10 then 48 + n else 55 + n

def encodeByte (b : UInt8) : Str := if isBare b then [b] else [37, hexDigit (b >>> 4), hexDigit (b &&& 0x0f)]

/-- Percent-encode a decoded path. -/
def percentEncodePath (s : Str) : Str := s.flatMap encodeByte

/-! ## Paths and hosts -/

/-- The canonical form of a path spelled with `.html`. -/
def canonicalForm (path : Str) : Option Str :=
  ((str ".html").isSuffixOf? path).map fun stem =>
    match (str "index").isSuffixOf? stem with
    | some dir => if dir.isEmpty || (str "/").isSuffixOf dir then dir else stem ++ str "/"
    | none => stem ++ str "/"

/-- A `Host` header as a lookup key: lower-cased, without a port. -/
def normalizeHost (h : Str) : Str :=
  let h := trim h
  lower <|
    match h with
    | 91 :: rest => (rest.splitOn 93).headD []
    | _ => (h.splitOn 58).headD []

/-- What a request path resolved to. -/
inductive Resolved where
  | entry (e : Cached)
  | dirIndex

/-- Map a decoded path to a cache entry, with the extensionless fallbacks. -/
def resolve (cache : Cache) (decoded : Str) : Option Resolved :=
  if (str "/").isSuffixOf decoded then
    match cache.lookup (decoded ++ str "index.html") with
    | some e => some (.entry e)
    | none =>
      let trimmed := (decoded.reverse.dropWhile (· == 47)).reverse
      if trimmed.isEmpty then none else (cache.lookup (trimmed ++ str ".html")).map .entry
  else
    match cache.lookup decoded with
    | some e => some (.entry e)
    | none =>
      match cache.lookup (decoded ++ str ".html") with
      | some e => some (.entry e)
      | none => (cache.lookup (decoded ++ str "/index.html")).map fun _ => .dirIndex

end BareServer
