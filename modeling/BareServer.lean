import BareServer.Serve.LoopSpec
import BareServer.Serve.Framing
import BareServer.Serve.Fidelity
import BareServer.Serve.Origin
import BareServer.Serve.Isolation
import BareServer.Serve.Confinement
import BareServer.Serve.Snapshot
import BareServer.Serve.Sharing
import BareServer.Serve.Deadline
import BareServer.Cache.Signature
import BareServer.Config.Loops
import BareServer.Config.Moves
import BareServer.Watch.Debounce
import BareServer.Watch.Renewal
import BareServer.Watch.Rebinding
import BareServer.Watch.Ports
import BareServer.Watch.SiteOrder
import BareServer.Accept.Tightening
import BareServer.Accept.Caps
import BareServer.Config.Comments
import BareServer.Config.Captures
import BareServer.Serve.Reachable
import BareServer.Serve.Fold
import BareServer.Serve.EntityTags
import BareServer.Serve.Strict
import BareServer.Serve.Repeated
import BareServer.Serve.Negotiation
import BareServer.Serve.Mirror
import BareServer.Serve.Conditional
import BareServer.Serve.Rate
import BareServer.Serve.HeadPhase
import BareServer.Watch.Retry
import BareServer.Cache.Edits
import BareServer.Serve.InRange
import BareServer.Cache.Lossless
import BareServer.Serve.Spelling
import BareServer.Shared.Replies
import BareServer.Shared.Realised
import BareServer.Watch.Restart
import BareServer.Watch.Backoff
