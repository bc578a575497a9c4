import RedisCore.Lib.RevCursor
import RedisCore.Lib.KeyedMap
import RedisCore.Dict.Refine
import RedisCore.Dict.Scan
import RedisCore.Commands
import RedisCore.Dict.IteratorRuns
import RedisCore.Util
import RedisCore.Sds
import RedisCore.Networking.Replies
import RedisCore.SetCommand
import RedisCore.Multi
import RedisCore.Watch
import RedisCore.Networking.Clients
import RedisCore.Networking.ReplyRuns
import RedisCore.Networking.Bulk
import RedisCore.Networking.PendingWrites
import RedisCore.Zset.Range
import RedisCore.Intset
import RedisCore.Ziplist.Runs
import RedisCore.Ziplist.Search
import RedisCore.Ziplist.Merge
import RedisCore.Ziplist.Cascade
import RedisCore.Quicklist.EndsRuns
import RedisCore.Quicklist.Edits
import RedisCore.Quicklist.Moves
import RedisCore.Quicklist.Depth
import RedisCore.Quicklist.Fill
import RedisCore.Quicklist.Merging
import RedisCore.Ae.Poll
import RedisCore.Replication.Backlog
import RedisCore.Replication.Feed
import RedisCore.Replication.HandshakeRuns
import RedisCore.Replication.Transfer
import RedisCore.Replication.Wait
import RedisCore.Networking.Deliveries
import RedisCore.Networking.Inline
import RedisCore.Networking.QueryRuns
import RedisCore.Networking.SplitArgs
import RedisCore.Networking.OutputMemory
import RedisCore.Networking.OutputAccounts
import RedisCore.Lib.Sampled
import RedisCore.Networking.SoftLimit
import RedisCore.Networking.Unblocked
import RedisCore.Dict.Random
import RedisCore.Adlist.Runs
import RedisCore.Ae.FileEvents
import RedisCore.Sds.Format
import RedisCore.Sds.Split
import RedisCore.Lzf.Encode
import RedisCore.Quicklist.Insert
import RedisCore.Quicklist.Iterate
import RedisCore.Quicklist.Copies
import RedisCore.Quicklist.Codec
import RedisCore.Replication.BulkTransfer
import RedisCore.Replication.Replay
import RedisCore.Sha1.Runs
import RedisCore.Gate
import RedisCore.Session.Replies
