import TeAomdv.Loops
import TeAomdv.Absent
import TeAomdv.Gate
import TeAomdv.Chain
import TeAomdv.Ownership
import TeAomdv.Queue
import TeAomdv.Waiting
import TeAomdv.Monotone
import TeAomdv.Bounds
import TeAomdv.Lifetime
import TeAomdv.Attribution
import TeAomdv.Once
import TeAomdv.Cascade
import TeAomdv.Advertised
import TeAomdv.Close
import TeAomdv.LinkFailure
import TeAomdv.Settled
import TeAomdv.Docket
import TeAomdv.Discovery
import TeAomdv.Purge
import TeAomdv.Distrust
import TeAomdv.Weights
import TeAomdv.Stale
import TeAomdv.Rounds
import TeAomdv.Unread
import TeAomdv.Evidence
import TeAomdv.StrokesRecv
import TeAomdv.Identity
import TeAomdv.Clock
import TeAomdv.Expiry
import TeAomdv.Patience
import TeAomdv.Shun
import TeAomdv.Regard
import TeAomdv.Arrival
