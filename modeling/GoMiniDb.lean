import GoMiniDb.GoMap
import GoMiniDb.Concurrency.RWMutex
import GoMiniDb.Concurrency.Mvcc
import GoMiniDb.ReaderWriter.ReaderList
import GoMiniDb.ReaderWriter.ReaderHeap
import GoMiniDb.Disk.Pager
import GoMiniDb.Disk.Mmap
import GoMiniDb.Storage.Node
import GoMiniDb.Storage.NodeSpec
import GoMiniDb.Storage.Tree
import GoMiniDb.Storage.Fuel
import GoMiniDb.Storage.Pages
import GoMiniDb.Storage.Inv
import GoMiniDb.Storage.Shape
import GoMiniDb.Storage.Region
import GoMiniDb.Storage.Splice
import GoMiniDb.Storage.Descent
import GoMiniDb.Storage.Accounting
import GoMiniDb.Storage.Harness
import GoMiniDb.Transaction.KVTX
import GoMiniDb.Storage.Split
import GoMiniDb.Storage.Build
import GoMiniDb.Storage.Layout
import GoMiniDb.Storage.Overflow
import GoMiniDb.Storage.Iterator
import GoMiniDb.Storage.IterOrder
import GoMiniDb.Storage.InsertInv
import GoMiniDb.Storage.Contents
import GoMiniDb.Storage.DeleteInv
import GoMiniDb.Storage.HarnessRef
import GoMiniDb.KVStore.FreeList
import GoMiniDb.Concurrency.LockManager
import GoMiniDb.Transaction.Isolation
import GoMiniDb.Transaction.DBTX
import GoMiniDb.Database.Types
import GoMiniDb.Database.Table
import GoMiniDb.Database.Index
import GoMiniDb.Database.Schema
import GoMiniDb.Query.Parser
import GoMiniDb.Query.Termination
import GoMiniDb.Query.Executor
