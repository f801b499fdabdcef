/-
`serve_over` (`main.rs`): the keep-alive request loop over a byte stream, with pipelined bytes kept
for the next request.
-/
import BareServer.Serve.Handle

namespace BareServer

open BareServer.Lib

def maxHeaderBytes : Nat := 8192
def maxReqsPerConn : Nat := 1000

/-- The checks against the clock: `connection n` before request `n`, `head n r` before a read for
request `n` with `r` arrivals still to come. A check that is true has passed its deadline. -/
structure Deadlines where
  connection : Nat → Bool
  head : Nat → Nat → Bool

/-- No deadline ever passes. -/
def Deadlines.never : Deadlines := ⟨fun _ => false, fun _ _ => false⟩

/-- What waiting for a head ends in: the head's end, the buffer and the arrivals left, or a return
with these last bytes written. -/
inductive Waited where
  | head (headEnd : Nat) (buf : Bytes) (rest : List (Option Bytes))
  | stop (out : Bytes)

/-- Accumulate until a full head is buffered. An arrival is what one read gives, `none` when it
fails; no bytes, or no arrival left, is the end of the stream. The search resumes three bytes before
what it has scanned, since a terminator may straddle reads. -/
def awaitHead (errs : ErrorPages) (due : Nat → Bool) (buf : Bytes) (scanned : Nat) :
    List (Option Bytes) → Waited :=
  fun arrivals =>
    match find (buf.drop (scanned - 3)) crlfcrlf with
    | some pos =>
      let headEnd := scanned - 3 + pos + 4
      if headEnd > maxHeaderBytes then .stop (sendError errs.headersTooLarge false false)
      else .head headEnd buf arrivals
    | none =>
      if buf.length ≥ maxHeaderBytes then .stop (sendError errs.headersTooLarge false false)
      else if due arrivals.length then .stop (sendError errs.requestTimeout false false)
      else
        match arrivals with
        | some (b :: bs) :: rest => awaitHead errs due (buf ++ b :: bs) buf.length rest
        | _ => .stop []

/-- Requests `reqs` and on; `left` of them may still be served. -/
def serveFrom (fs : FileSys) (vhosts : Vhosts) (redirectHttps : Bool) (sni : Option Str) (dl : Deadlines)
    (reqs : Nat) : Nat → Bytes → List (Option Bytes) → Bytes
  | 0, _, _ => []
  | left + 1, buf, arrivals =>
    if dl.connection reqs then []
    else
      match awaitHead vhosts.errors (dl.head reqs) buf 0 arrivals with
      | .stop out => out
      | .head headEnd buf rest =>
        let reply := handleRequest fs (buf.take headEnd) vhosts (decide (reqs + 1 < maxReqsPerConn)) redirectHttps sni
        reply.out ++
          if reply.result = some true then
            serveFrom fs vhosts redirectHttps sni dl (reqs + 1) left (buf.drop headEnd) rest
          else []

/-- Everything written on one connection. -/
def serveOver (fs : FileSys) (vhosts : Vhosts) (buf : Bytes) (redirectHttps : Bool) (sni : Option Str)
    (dl : Deadlines) (arrivals : List (Option Bytes)) : Bytes :=
  serveFrom fs vhosts redirectHttps sni dl 0 maxReqsPerConn buf arrivals

end BareServer
