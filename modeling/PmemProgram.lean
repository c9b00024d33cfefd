import PmemProgram.Lib.Cmd
import PmemProgram.Lib.Machine
import PmemProgram.Lib.Tx
import PmemProgram.Cxl.Refinement
import PmemProgram.Cxl.Framing
import PmemProgram.Cxl.LockClient
import PmemProgram.Cxl.Disconnect
import PmemProgram.Cxl.Restart
import PmemProgram.Cxl.DsaMailbox
import PmemProgram.Cxl.Allocation
import PmemProgram.Cxl.BlockCheck
import PmemProgram.Cxl.CacheFlush
import PmemProgram.Cbs.PmemTwins
import PmemProgram.Cbs.PmemobjCrash
import PmemProgram.Cbs.PmemobjMap
import PmemProgram.Cbs.Counts
import PmemProgram.Cbs.Ranges
import PmemProgram.Cbs.Layout
import PmemProgram.Queue.Fifo
import PmemProgram.Queue.Replay
import PmemProgram.RandNamespace.Write4k
import PmemProgram.Wal.Inject
import PmemProgram.Wal.Schedule
import PmemProgram.Wal.Failures
import PmemProgram.Wal.Lengths
import PmemProgram.Wal.Credit
import PmemProgram.Wal.Truncate
import PmemProgram.Wal.Words
import PmemProgram.Wal.Table
import PmemProgram.Wal.DisabledSync
import PmemProgram.Wal.AttachFailure
import PmemProgram.Cxl.SharedReads
import PmemProgram.Wal.NvmName
import PmemProgram.Lib.Posix
import PmemProgram.Wal.Modes
import PmemProgram.Wal.Posix
import PmemProgram.Lib.Progress
import PmemProgram.Wal.Waiting
import PmemProgram.Lib.CyclicCode
import PmemProgram.Cxl.CrcWidths
import PmemProgram.Lib.Chains
import PmemProgram.Cxl.HashHeap
import PmemProgram.Cbs.MemkindMap
import PmemProgram.Cbs.Ssd
import PmemProgram.Cbs.Pmemkv
import PmemProgram.Cxl.Descriptors
