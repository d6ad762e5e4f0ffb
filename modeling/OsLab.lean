import OsLab.Lib.Run
import OsLab.Lib.Sched
import OsLab.Threads.Model
import OsLab.Threads.Invariant
import OsLab.Threads.Calls
import OsLab.Threads.Step
import OsLab.Threads.Runs
import OsLab.Threads.Locks
import OsLab.Threads.Objects
import OsLab.Threads.Waiters
import OsLab.Threads.Cvs
import OsLab.Threads.Guards
import OsLab.Threads.Writes
import OsLab.Threads.Leaks
import OsLab.Threads.Fifo
import OsLab.Threads.Valid
import OsLab.Lib.Signals
import OsLab.Threads.Masks
import OsLab.Lib.Probe
import OsLab.Cache.Model
import OsLab.Cache.Map
import OsLab.Cache.Evict
import OsLab.Cache.Accounts
import OsLab.Cache.Enough
import OsLab.Lib.Ring
import OsLab.Server.Pool
import OsLab.Server.Exit
import OsLab.Server.Wakeups
import OsLab.Server.Requests
import OsLab.Server.Accounts
import OsLab.Server.Recency
import OsLab.Lib.Text
import OsLab.Server.Client
import OsLab.Server.Parse
import OsLab.Lib.Bytes
import OsLab.Lib.Pool
import OsLab.Lib.Names
import OsLab.Testfs.Disk
import OsLab.Testfs.Bitmap
import OsLab.Testfs.Model
import OsLab.Testfs.Moves
import OsLab.Testfs.Refs
import OsLab.Testfs.Tree
import OsLab.Testfs.Store
import OsLab.Testfs.Core
import OsLab.Testfs.Alloc
import OsLab.Testfs.Data
import OsLab.Testfs.Read
import OsLab.Testfs.Inodes
import OsLab.Testfs.Remove
import OsLab.Testfs.Dir
import OsLab.Testfs.Graph
import OsLab.Testfs.Commands
import OsLab.Testfs.Mkfs
import OsLab.Testfs.Runs
import OsLab.Testfs.Maps
import OsLab.Testfs.Undo
import OsLab.Testfs.Limit
import OsLab.Testfs.Prefix
import OsLab.Testfs.Append
import OsLab.Testfs.Reclaim
import OsLab.Testfs.Fresh
import OsLab.Testfs.Returns
import OsLab.Testfs.Maximum
import OsLab.Testfs.Range
import OsLab.Cache.Probing
import OsLab.Server.Lines
import OsLab.Lib.Tokens
import OsLab.Testfs.Shell
import OsLab.Testfs.Settle
import OsLab.Testfs.Walk
import OsLab.Testfs.Mirror
import OsLab.Testfs.Cover
import OsLab.Testfs.Sizes
import OsLab.Lib.Paths
import OsLab.Lib.Simulation
import OsLab.Testfs.Silent
import OsLab.Testfs.Paths
import OsLab.Testfs.Views
import OsLab.Testfs.Listing
import OsLab.Testfs.Refines
import OsLab.Testfs.Sessions
import OsLab.Testfs.Files
import OsLab.Testfs.Total
import OsLab.Testfs.Steady
import OsLab.Testfs.Counts
import OsLab.Lib.Turns
import OsLab.Threads.Turns
import OsLab.Threads.Stacks
import OsLab.Threads.Returns
