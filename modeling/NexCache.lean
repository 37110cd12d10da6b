import NexCache.NexDash.Accounting
import NexCache.Core.SubkeyTtl
import NexCache.Crdt.OrsetRefine
import NexCache.Flash.Refine
import NexCache.Persistence.Rdb
import NexCache.Cluster.Failures
import NexCache.Crdt.Families
import NexCache.Server.Returns
import NexCache.Hashtable.FullScan
import NexCache.Hashtable.SafeIterator
import NexCache.Kvstore.Scan
import NexCache.Util.Numbers
import NexCache.Timeseries.NexTS
import NexCache.NexDash.Deadlines
import NexCache.Storage.NdTtl
import NexCache.Cluster.Patterns
import NexCache.Server.Statistics
import NexCache.Server.Frequency
import NexCache.Core.Exec
import NexCache.Network.Send
import NexCache.Network.Detect
import NexCache.Security.Quota
