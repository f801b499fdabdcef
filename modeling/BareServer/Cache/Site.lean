/-
The virtual-host table (`cache.rs`, `Site` and `Vhosts`).
-/
import BareServer.Cache.Walk

namespace BareServer

open BareServer.Lib

/-- One live virtual host. `id` is the identity of the shared `Arc`: the aliases of one site carry
the same number, distinct sites distinct ones. -/
structure Site where
  id : Nat
  root : Option Path
  cache : SiteCache
  forceSsl : Bool
  canonicalUrls : Bool
  redirects : Redirects
  policy : Policy

/-- Lower-cased host name to live site. -/
abbrev Sites := Map Str Site

/-- The host table; `errors` goes out before any site is known. -/
structure Vhosts where
  sites : Sites
  httpsPort : Str
  httpPort : Str
  errors : ErrorPages

end BareServer
