import Sithnapse.Api.Ratelimiting
import Sithnapse.ChainCover.Aborts
import Sithnapse.AuthChain.Subgraph
import Sithnapse.AuthChain.EarlyExit
import Sithnapse.AuthChain.ShortIds
import Sithnapse.AuthChain.ClosurePurge
import Sithnapse.ForwardIndex.Rebuild
import Sithnapse.ForwardIndex.Generations
import Sithnapse.StateRoots.Reads
import Sithnapse.EdgeStore.Contract
import Sithnapse.EdgeStore.Optimistic
import Sithnapse.EdgeStore.Purge
import Sithnapse.EdgeStore.Dirty
import Sithnapse.EdgeStore.Locking
import Sithnapse.RoomIndex.Lookups
import Sithnapse.StateRes.BaseState
import Sithnapse.StateGroups.Migration
import Sithnapse.StateCache.Difference
import Sithnapse.StateCache.Reads
import Sithnapse.EventJson.Erasure
import Sithnapse.ChainCover.LinkTables
import Sithnapse.AuthChain.Retries
import Sithnapse.Extremities.Graph
import Sithnapse.Extremities.Backward
import Sithnapse.PersistQueue.Queue
import Sithnapse.SlidingSync.Connection
import Sithnapse.PushActions.Receipts
import Sithnapse.Kit.Paging
import Sithnapse.Streams.ChangeCache
import Sithnapse.Streams.IdGenerators
import Sithnapse.Streams.Tokens
import Sithnapse.Streams.Pagination
