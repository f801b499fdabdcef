/-
The config file (`config.rs`, `parse_config`): one step for each line, over the values read so far
and the site block being read, then every site resolved against the finished defaults.
-/
import BareServer.Config.Settings

namespace BareServer

open BareServer.Lib

/-! ## Lines -/

/-- The lines of a text: a final line feed ends the last line, and `\r\n` ends a line too. -/
def lines (s : Str) : List Str :=
  match (s.splitOn 10).reverse with
  | [] => []
  | last :: ended =>
    ended.reverse.map (fun l => ((str "\r").isSuffixOf? l).getD l) ++ (if last = [] then [] else [last])

/-- ASCII white space: space, tab, line feed, form feed, carriage return. -/
def isAsciiWhitespace (b : UInt8) : Bool := b == 32 || b == 9 || b == 10 || b == 12 || b == 13

/-- A line without its comment, trimmed. -/
def stripComment (raw : Str) : Str :=
  trim <|
    match indexOf? (str "#") raw with
    | some 0 => []
    | some (p + 1) => if (raw[p]?.map isAsciiWhitespace).getD false then raw.take (p + 1) else raw
    | none => raw

/-- What follows a directive word and a space or tab. -/
def directive (word line : Str) : Option Str :=
  ((word ++ str " ").isPrefixOf? line).or ((word ++ str "\t").isPrefixOf? line)

/-- An error message with its line number. -/
def at' (n : Nat) (msg : Str) : Str := str "config line " ++ dec n ++ str ": " ++ msg

/-- The block that means the same as a `site = ...` line. -/
def explainSiteLine (v : Str) : Str :=
  str "`site = ...` is not valid: a site is a block" ++
  match splitWhitespace v with
  | h :: r :: c :: k :: rest =>
    if rest.length ≤ 1 then
      str ":\n\n" ++ str "    site " ++ h ++ str " \x7b\n" ++ str "        root = " ++ r ++ str "\n" ++
      str "        cert = " ++ c ++ str "\n" ++ str "        key  = " ++ k ++ str "\n" ++
      (if rest.head? = some (str "allow_http") then str "        force_ssl = off\n" else []) ++ str "    \x7d"
    else str ". See server.conf.example"
  | _ => str ". See server.conf.example"

/-- The block that means the same as a `redirect = ...` line. -/
def explainRedirectLine (v : Str) : Str :=
  str "`redirect = ...` is not valid here: a redirect-only host is a site block with no root" ++
  match splitWhitespace v with
  | [h, dest, c, k] =>
    str ":\n\n" ++ str "    site " ++ h ++ str " \x7b\n" ++ str "        cert = " ++ c ++ str "\n" ++
    str "        key  = " ++ k ++ str "\n" ++ str "        redirect * -> https://" ++ dest ++ str "$0\n" ++
    str "    \x7d"
  | _ => str ". See server.conf.example"

/-! ## State -/

/-- A site block being read; its overrides are applied once the file's defaults are known. -/
structure PendingSite where
  line : Nat
  hosts : List Str
  root : Option Str
  cert : Option Str
  key : Option Str
  forceSsl : Bool
  canonicalUrls : Bool
  redirects : Redirects
  overrides : List (Nat × Str × Str)

/-- A block just opened: upgraded to HTTPS and not folded unless it says otherwise. -/
def PendingSite.new (line : Nat) (hosts : List Str) : PendingSite where
  line
  hosts
  root := none
  cert := none
  key := none
  forceSsl := true
  canonicalUrls := false
  redirects := default
  overrides := []

/-- The values read so far; `cur` is the open site block. -/
structure ParseState where
  host : Str
  port : Str
  httpHost : Str
  httpPort : Str
  pending : List PendingSite
  tuning : Tuning
  headers : HeaderConfig
  maxConnsPerIp : Nat
  maxResponseSecs : Nat
  storage : Storage
  diskCache : Option Str
  cur : Option PendingSite

def ParseState.init : ParseState where
  host := []
  port := []
  httpHost := []
  httpPort := []
  pending := []
  tuning := .default
  headers := .default
  maxConnsPerIp := defMaxConnsPerIp
  maxResponseSecs := 0
  storage := .memory
  diskCache := none
  cur := none

/-! ## One line -/

/-- `site <host[, host2]> {` -/
def openSite (st : ParseState) (n : Nat) (rest : Str) : Except Str ParseState :=
  let rest := trim rest
  match (str "=").isPrefixOf? rest with
  | some v => .error (at' n (explainSiteLine (trim v)))
  | none =>
    if st.cur.isSome then .error (at' n (str "site blocks cannot nest"))
    else
      match (str "\x7b").isSuffixOf? rest with
      | none => .error (at' n (str "a site must open a block: site <host[, host2]> \x7b"))
      | some names =>
        let hosts := ((names.splitOn 44).map fun h => lower (trim h)).filter fun h => !h.isEmpty
        if hosts.isEmpty then .error (at' n (str "site has no host names"))
        else .ok { st with cur := some (.new n hosts) }

/-- `redirect <pattern> -> <target>` -/
def redirectLine (st : ParseState) (n : Nat) (rest : Str) : Except Str ParseState :=
  let rest := trim rest
  match (str "=").isPrefixOf? rest with
  | some v => .error (at' n (explainRedirectLine (trim v)))
  | none =>
    match st.cur with
    | none => .error (at' n (str "redirect rules belong inside a site block"))
    | some site =>
      match splitOnce rest (str "->") with
      | none => .error (at' n (str "redirect must be: redirect <pattern> -> <target>"))
      | some (pat, target) =>
        if (trim pat).isEmpty then .error (at' n (str "redirect: empty pattern"))
        else
          match site.redirects.push (trim pat) (trim target) with
          | .error e => .error (at' n e)
          | .ok r => .ok { st with cur := some { site with redirects := r } }

/-- A `key = value` line inside a site block. -/
def siteSetting (st : ParseState) (site : PendingSite) (n : Nat) (k v : Str) : Except Str ParseState :=
  let put (s : PendingSite) : ParseState := { st with cur := some s }
  if k == str "root" then .ok (put { site with root := some v })
  else if k == str "cert" then .ok (put { site with cert := some v })
  else if k == str "key" then .ok (put { site with key := some v })
  else if k == str "force_ssl" then
    ((parseBool k v).mapError (at' n)).map fun b => put { site with forceSsl := b }
  else if k == str "canonical_urls" then
    ((parseBool k v).mapError (at' n)).map fun b => put { site with canonicalUrls := b }
  else
    match serverOnlyReason k with
    | some why => .error (at' n (k ++ str " is a server-level setting (" ++ why ++ str ")"))
    | none =>
      -- validated here against the defaults so far; applied once they are all known
      match applyShared st.tuning st.headers k v with
      | .error e => .error (at' n e)
      | .ok none => .error (at' n (str "unknown site setting: " ++ k))
      | .ok (some _) => .ok (put { site with overrides := site.overrides ++ [(n, k, v)] })

/-- `host:port`, split at the last colon. -/
def parseListen (n : Nat) (key eg v : Str) : Except Str (Str × Str) :=
  match rsplitOnce v 58 with
  | none => .error (at' n (key ++ str " must be host:port"))
  | some (h, p) =>
    if (trim h).isEmpty || (trim p).isEmpty then
      .error (at' n (key ++ str " must be host:port, e.g. " ++ eg))
    else .ok (h, p)

/-- A `key = value` line at the top level. -/
def serverSetting (st : ParseState) (n : Nat) (k v : Str) : Except Str ParseState :=
  if k == str "listen" then
    (parseListen n k (str "[::]:443") v).map fun hp => { st with host := hp.1, port := hp.2 }
  else if k == str "listen_http" then
    (parseListen n k (str "[::]:80") v).map fun hp => { st with httpHost := hp.1, httpPort := hp.2 }
  else if k == str "max_total_bytes" then
    ((parseSize k v).mapError (at' n)).map fun x => { st with tuning := { st.tuning with maxTotalBytes := x } }
  else if k == str "max_conns_per_ip" then
    ((parseCount k v).mapError (at' n)).map fun x => { st with maxConnsPerIp := x }
  else if k == str "max_response_secs" then
    ((parseDeadlineSecs k v).mapError (at' n)).map fun x => { st with maxResponseSecs := x }
  else if k == str "storage" then
    let w := lower (trim v)
    if [str "memory", str "mem", str "ram"].contains w then .ok { st with storage := .memory }
    else if w == str "disk" then .ok { st with storage := .disk }
    else .error (at' n (str "storage: expected memory or disk (got: " ++ v ++ str ")"))
  else if k == str "disk_cache" then .ok { st with diskCache := some (trim v) }
  else
    match applyShared st.tuning st.headers k v with
    | .error e => .error (at' n e)
    | .ok (some (t, h)) => .ok { st with tuning := t, headers := h }
    | .ok none =>
      if isSiteOnly k then .error (at' n (k ++ str " belongs inside a site block"))
      else .error (at' n (str "unknown config key: " ++ k))

/-- One line of the file, the body of `parse_config`'s loop. -/
def parseLine (st : ParseState) (n : Nat) (raw : Str) : Except Str ParseState :=
  let line := stripComment raw
  if line.isEmpty then .ok st
  else if line == str "\x7d" then
    match st.cur with
    | none => .error (at' n (str "stray '\x7d' outside a site block"))
    | some site =>
      .ok { st with cur := none, pending := st.pending ++ [{ site with redirects := site.redirects.finish }] }
  else
    match directive (str "site") line with
    | some rest => openSite st n rest
    | none =>
      match directive (str "redirect") line with
      | some rest => redirectLine st n rest
      | none =>
        match splitOnce line (str "=") with
        | none => .error (at' n (str "malformed config line: " ++ line))
        | some (k, v) =>
          match st.cur with
          | some site => siteSetting st site n (trim k) (trim v)
          | none => serverSetting st n (trim k) (trim v)

/-- The line loop, from line number `n`. -/
def parseLines (st : ParseState) (n : Nat) : List Str → Except Str ParseState
  | [] => .ok st
  | raw :: rest =>
    match parseLine st n raw with
    | .error e => .error e
    | .ok st' => parseLines st' (n + 1) rest

/-! ## Resolution -/

/-- Apply a site's overrides in file order. -/
def applyOverrides (t : Tuning) (h : HeaderConfig) : List (Nat × Str × Str) → Except Str (Tuning × HeaderConfig)
  | [] => .ok (t, h)
  | (n, k, v) :: rest =>
    match applyShared t h k v with
    | .error e => .error (at' n e)
    | .ok (some (t', h')) => applyOverrides t' h' rest
    | .ok none => applyOverrides t h rest

/-- A pending site against the finished defaults. -/
def resolveSite (t : Tuning) (h : HeaderConfig) (p : PendingSite) : Except Str SiteConfig :=
  let label := (str ",").intercalate p.hosts
  match p.cert with
  | none => .error (at' p.line (str "site " ++ label ++
      str ": missing 'cert' (TLS terminates here even for a redirect-only host)"))
  | some cert =>
    match p.key with
    | none => .error (at' p.line (str "site " ++ label ++ str ": missing 'key'"))
    | some key =>
      if p.root.isNone && p.redirects.isEmpty then
        .error (at' p.line (str "site " ++ label ++
          str ": needs a 'root' to serve, or at least one redirect rule"))
      else
        match applyOverrides t h p.overrides with
        | .error e => .error e
        | .ok (t', h') => .ok
          { hosts := p.hosts, root := p.root, cert, key, forceSsl := p.forceSsl, canonicalUrls := p.canonicalUrls,
            redirects := p.redirects, tuning := t', headers := h' }

def resolveSites (t : Tuning) (h : HeaderConfig) : List PendingSite → Except Str (List SiteConfig)
  | [] => .ok []
  | p :: ps =>
    match resolveSite t h p with
    | .error e => .error e
    | .ok s => (resolveSites t h ps).map (s :: ·)

def parseConfig (text : Str) : Except Str Config :=
  match parseLines .init 1 (lines text) with
  | .error e => .error e
  | .ok st =>
    match st.cur with
    | some s => .error (at' s.line (str "unclosed site block (missing '\x7d')"))
    | none =>
      if st.host.isEmpty || st.port.isEmpty then .error (str "missing 'listen'")
      else if st.pending.isEmpty then .error (str "at least one 'site <host> \x7b ... \x7d' block is required")
      else if st.storage == .disk && (st.diskCache.getD []).isEmpty then
        .error (str "storage = disk requires 'disk_cache = <path>' (a writable directory on real disk)")
      else
        match resolveSites st.tuning st.headers st.pending with
        | .error e => .error e
        | .ok sites => .ok
          { host := st.host, port := st.port, httpHost := st.httpHost, httpPort := st.httpPort, sites,
            headers := st.headers, maxConnsPerIp := st.maxConnsPerIp, maxResponseSecs := st.maxResponseSecs,
            storage := st.storage, diskCache := st.diskCache }

end BareServer
