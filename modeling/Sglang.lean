import Sglang.Alloc.Assignment
import Sglang.Alloc.SwaFailure
import Sglang.Unified.Certificates
import Sglang.Tree.Progress
import Sglang.Tree.Sessions
import Sglang.Tree.Ownership
import Sglang.Tree.RustMatch
import Sglang.Radix.Accounting
import Sglang.Indexer.Graph
import Sglang.Indexer.Scanner
import Sglang.KvEvents.Pending
import Sglang.Router.Breaker
import Sglang.Schedule.IgnoreEos
import Sglang.Disagg.StagingRing
import Sglang.Disagg.StagingGrid
import Sglang.Unified.Admission
import Sglang.Schedule.StopStr
import Sglang.Gateway.Breaker
import Sglang.Gateway.Bucket
import Sglang.Gateway.Registry
import Sglang.Gateway.TokenBucket
