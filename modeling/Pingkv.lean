import Pingkv.Lib.Exec
import Pingkv.Lib.Bytes
import Pingkv.Lib.Transition
import Pingkv.Lib.OrderedMap
import Pingkv.Lib.SearchTree
import Pingkv.Lib.SearchTreeUpdate
import Pingkv.Lib.Region
import Pingkv.Lib.Alike
import Pingkv.Lib.Heap
import Pingkv.Lib.LinkedList
import Pingkv.Lib.Numeral
import Pingkv.Lib.LastWrite
import Pingkv.Lib.Simulation
import Pingkv.Lib.Listed
import Pingkv.DataFile.Basic
import Pingkv.DataFile.Layout
import Pingkv.DataFile.Invariant
import Pingkv.DataFile.Allocate
import Pingkv.DataFile.Rows
import Pingkv.DataFile.Read
import Pingkv.DataFile.Edit
import Pingkv.DataFile.Write
import Pingkv.DataFile.Modify
import Pingkv.DataFile.Store
import Pingkv.DataFile.History
import Pingkv.DataFile.Reachable
import Pingkv.DataFile.Blocks
import Pingkv.DataFile.Survive
import Pingkv.DataFile.Flush
import Pingkv.DataFile.Offsets
import Pingkv.DataFile.Fit
import Pingkv.DataFile.Links
import Pingkv.DataFile.FitWrite
import Pingkv.DataFile.FitRows
import Pingkv.DataFile.Unmapped
import Pingkv.DataFile.Reread
import Pingkv.DataFile.FitModify
import Pingkv.DataFile.Restore
import Pingkv.DataFile.RowId
import Pingkv.DataFile.Ends
import Pingkv.DataFile.Runs
import Pingkv.DataFile.HeadPointers
import Pingkv.DataFile.AnyRow
import Pingkv.DataFile.LaidOut
import Pingkv.DataFile.Sessions
import Pingkv.Index.Basic
import Pingkv.Index.Node
import Pingkv.Index.Position
import Pingkv.Index.Tree
import Pingkv.Index.Edit
import Pingkv.Index.Update
import Pingkv.Index.Set
import Pingkv.Index.Create
import Pingkv.Index.Delete
import Pingkv.Index.Lookup
import Pingkv.Index.WellFormed
import Pingkv.Index.Run
import Pingkv.Index.Reachable
import Pingkv.Index.Cache
import Pingkv.Index.Open
import Pingkv.Index.KeyLength
import Pingkv.Index.Sessions
import Pingkv.Index.Lock
import Pingkv.Cache.Lru
import Pingkv.Cache.Provenance
import Pingkv.Cache.Layout
import Pingkv.Cache.Ageout
import Pingkv.Cache.Search
import Pingkv.Cache.Keep
import Pingkv.Cache.Renew
import Pingkv.Tool.LinkList
import Pingkv.Tool.HashTable
import Pingkv.Tool.Entries
import Pingkv.Tool.Contents
import Pingkv.Tool.Iterator
import Pingkv.Tool.Backward
import Pingkv.Tool.BucketCount
import Pingkv.Tool.LList
import Pingkv.Tool.Edits
import Pingkv.Conf.Basic
import Pingkv.Conf.Passes
import Pingkv.Conf.Meaning
import Pingkv.Conf.Outcome
import Pingkv.Conf.Size
import Pingkv.Conf.LastLine
import Pingkv.Route
import Pingkv.Server.Files
import Pingkv.Server.IoBuf
import Pingkv.Server.IoSession
import Pingkv.Server.Work
import Pingkv.Server.Connection
import Pingkv.Server.Receive
import Pingkv.Server.Framing
import Pingkv.Server.Worker
import Pingkv.Server.Send
import Pingkv.Server.Sender
import Pingkv.Server.Poller
import Pingkv.Server.Ownership
import Pingkv.Server.SendOrder
import Pingkv.Server.Pool
import Pingkv.Server.PoolOrder
import Pingkv.Server.Shares
import Pingkv.Server.Stored
import Pingkv.Server.SendTurns
import Pingkv.Server.Service
import Pingkv.Server.Whereabouts
import Pingkv.Server.Linearizable
import Pingkv.Server.Answered
import Pingkv.Server.Store
import Pingkv.Server.Restart
import Pingkv.Client.Calls
import Pingkv.Client.Exchange
import Pingkv.Client.Outcome
import Pingkv.Client.Settled
import Pingkv.Client.Cluster
