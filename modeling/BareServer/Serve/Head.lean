/-
Reading a request head (`main.rs`, the first half of `handle_request`): strict framing, the request
line, and the single pass over the header lines.
-/
import BareServer.Serve.Text

namespace BareServer

open BareServer.Lib

/-! ## Framing -/

/-- CRLFCRLF, the end of a head. -/
def crlfcrlf : Bytes := [13, 10, 13, 10]

/-- The windows of `n` bytes of a byte string, in order. -/
def windows (n : Nat) (hay : Bytes) : List Bytes :=
  (List.range (hay.length + 1 - n)).map fun i => (hay.drop i).take n

/-- The first position of `needle` in `hay`. -/
def find (hay needle : Bytes) : Option Nat :=
  if needle.isEmpty || hay.length < needle.length then none
  else (windows needle.length hay).findIdx? (· == needle)

/-- Only CRLF line breaks, and no control byte besides them but HTAB? -/
def wellFormedHead : Bytes → Bool
  | [] => true
  | 13 :: 10 :: t => wellFormedHead t
  | c :: t => if c == 13 || c == 10 || c == 0x7F || (c < 0x20 && c != 9) then false else wellFormedHead t

/-! ## Header lines -/

/-- What the pass over the header lines has collected. -/
structure Fields where
  keepAlive : Bool
  acceptEnc : Str
  hostHdr : Str
  inm : Str
  hostSeen : Bool
  hasBody : Bool

/-- The `Connection` options of one field value. -/
def connectionOptions (keepAlive : Bool) : List Str → Bool
  | [] => keepAlive
  | tok :: rest =>
    let tok := trim tok
    if eqIgnoreCase tok (str "close") then connectionOptions false rest
    else if eqIgnoreCase tok (str "keep-alive") then connectionOptions true rest
    else connectionOptions keepAlive rest

/-- The name and the trimmed value of a header line; `none` when it is malformed. -/
def fieldOf (line : Str) : Option (Str × Str) :=
  if (str " ").isPrefixOf line || (str "\t").isPrefixOf line then none
  else
    match splitOnce line (str ":") with
    | none => none
    | some (name, value) =>
      if name.isEmpty || name.any (fun b => b == 32 || b == 9) then none else some (name, trim value)

/-- One header line; `none` is a 400. -/
def fieldLine (f : Fields) (line : Str) : Option Fields :=
  match fieldOf line with
  | none => none
  | some (name, value) =>
    if eqIgnoreCase name (str "host") then
      if f.hostSeen then none else some { f with hostSeen := true, hostHdr := value }
    else if eqIgnoreCase name (str "content-length") then
      some (if value != str "0" then { f with hasBody := true } else f)
    else if eqIgnoreCase name (str "transfer-encoding") then some { f with hasBody := true }
    else if eqIgnoreCase name (str "connection") then
      some { f with keepAlive := connectionOptions f.keepAlive (value.splitOn 44) }
    else if eqIgnoreCase name (str "if-none-match") then some { f with inm := value }
    else if eqIgnoreCase name (str "accept-encoding") then some { f with acceptEnc := value }
    else some f

/-- The header lines up to the blank one; `none` is a 400. -/
def fieldLines (f : Fields) : List Str → Option Fields
  | [] => some f
  | line :: rest => if line.isEmpty then some f else (fieldLine f line).bind fun f' => fieldLines f' rest

/-! ## The request -/

/-- A request whose head was accepted. -/
structure Request where
  method : Str
  target : Str
  version : Str
  fields : Fields

def Request.isHead (r : Request) : Bool := r.method == str "HEAD"

/-- The three fields of a request line, the empty text for a missing one, and whether there is a
fourth. -/
def requestLine (reqline : Str) : Str × Str × Str × Bool :=
  let parts := reqline.splitOn 32
  (parts[0]?.getD [], parts[1]?.getD [], parts[2]?.getD [], parts[3]?.isSome)

/-- Read a request head. An error is a 400, sent without its body when it says so: the request line
was read and its method is HEAD. -/
def readRequest (head : Bytes) : Except Bool Request :=
  match fromUtf8 head with
  | none => .error false
  | some text =>
    if !wellFormedHead head then .error false
    else
      let lines := splitCrlf text
      let (method, target, version, extra) := requestLine (lines.headD [])
      let isHead := method == str "HEAD"
      if extra then .error isHead
      else if method.isEmpty || target.isEmpty || version.isEmpty then .error isHead
      else if version != str "HTTP/1.1" && version != str "HTTP/1.0" then .error isHead
      else if target.any isControl then .error isHead
      else
        let init : Fields := ⟨version == str "HTTP/1.1", [], [], [], false, false⟩
        match fieldLines init lines.tail with
        | none => .error isHead
        | some fields => if fields.hasBody then .error isHead else .ok ⟨method, target, version, fields⟩

end BareServer
