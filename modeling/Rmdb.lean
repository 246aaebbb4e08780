import Rmdb.Lib.Bisect
import Rmdb.Lib.Cursor
import Rmdb.Lib.Framing
import Rmdb.Lib.KeyMap
import Rmdb.Lib.LinkChain
import Rmdb.Lib.LittleEndian
import Rmdb.Lib.PageRecovery
import Rmdb.Lib.StepSystem
import Rmdb.Lib.VersionHistory
import Rmdb.Lib.KeyRollback
import Rmdb.Lib.Tower
import Rmdb.Lib.Cells
import Rmdb.Lib.KeyUndo
import Rmdb.Storage.LruReplacer
import Rmdb.Record.Table
import Rmdb.Record.HeapFile
import Rmdb.Recovery.LogRecord
import Rmdb.Recovery.LogCodec
import Rmdb.Recovery.Recovery
import Rmdb.Recovery.Analysis
import Rmdb.Recovery.LogDecode
import Rmdb.Recovery.LogFile
import Rmdb.Recovery.PageView
import Rmdb.Recovery.DbView
import Rmdb.Recovery.LogFlush
import Rmdb.Recovery.Interrupt
import Rmdb.Index.IxCompare
import Rmdb.Index.IxIndexHandle
import Rmdb.Index.Levels
import Rmdb.Index.Ascend
import Rmdb.Index.Shape
import Rmdb.Index.Calls
import Rmdb.Index.IxManager
import Rmdb.Index.IxScan
import Rmdb.Transaction.LockManager
import Rmdb.Transaction.History
import Rmdb.Transaction.Sys
import Rmdb.Transaction.IndexKeys
import Rmdb.Transaction.Moves
import Rmdb.Transaction.Wal
import Rmdb.Transaction.WalStatus
import Rmdb.Transaction.WalContent
import Rmdb.Transaction.WalDisk
import Rmdb.Transaction.Refine
import Rmdb.Transaction.WriteSet
import Rmdb.Transaction.Simulation
import Rmdb.Transaction.Crash
import Rmdb.Transaction.CommittedHeap
import Rmdb.Transaction.PageLsn
import Rmdb.Transaction.RestartedRecovery
import Rmdb.Mvcc.Watermark
import Rmdb.Mvcc.Entry
import Rmdb.Mvcc.Ssi
import Rmdb.Mvcc.Engine
import Rmdb.Mvcc.HeapEffects
import Rmdb.Mvcc.Trace
import Rmdb.Mvcc.Effects
import Rmdb.Mvcc.Row
import Rmdb.Mvcc.RowEffects
import Rmdb.Mvcc.EndEffects
import Rmdb.Mvcc.Consistent
import Rmdb.Mvcc.ConsistentRows
import Rmdb.Mvcc.ConsistentWrites
import Rmdb.Mvcc.ConsistentEnds
import Rmdb.Mvcc.Roster
import Rmdb.Mvcc.Runs
import Rmdb.Mvcc.Keys
import Rmdb.Mvcc.MvccRuns
import Rmdb.Mvcc.Session
import Rmdb.Mvcc.Books
import Rmdb.Mvcc.KeysEnds
import Rmdb.Mvcc.Snapshot
import Rmdb.Mvcc.Undo
import Rmdb.Mvcc.Isolation
import Rmdb.Mvcc.PlainKeys
import Rmdb.Mvcc.Rollback
import Rmdb.Mvcc.UniqueKeys
import Rmdb.Mvcc.AbortOk
import Rmdb.Mvcc.PlainRuns
import Rmdb.Mvcc.RollbackMvcc
import Rmdb.Mvcc.AbortEffects
import Rmdb.Mvcc.Retable
import Rmdb.System.LoadTable
import Rmdb.System.Ddl
import Rmdb.System.SmMeta
import Rmdb.System.Catalog
import Rmdb.System.TableChanges
import Rmdb.Execution.Executors
import Rmdb.Execution.Streams
import Rmdb.Execution.Plans
import Rmdb.Server.Restart
import Rmdb.Server.ClientHandler
import Rmdb.Server.SessionTxn
import Rmdb.Server.FailedStatement
