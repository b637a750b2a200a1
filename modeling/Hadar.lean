import Hadar.Lib.Prog
import Hadar.Lib.Alike
import Hadar.Lib.Faults
import Hadar.Lib.Lexicographic
import Hadar.Lib.BigEndian
import Hadar.Lib.OrderedMap
import Hadar.Lib.Lifetimes
import Hadar.Model.Storage
import Hadar.Model.Revision
import Hadar.Model.Index
import Hadar.Model.Store
import Hadar.Model.Frame
import Hadar.Model.Segment
import Hadar.Model.Wal
import Hadar.Model.Counting
import Hadar.Model.Writer
import Hadar.Interface.MultiVersion
import Hadar.Analysis.Generations
import Hadar.Analysis.Histories
import Hadar.Analysis.Indexes
import Hadar.Model.Assertions
import Hadar.Interface.Representation
import Hadar.Analysis.Representation
import Hadar.Interface.Partition
import Hadar.Analysis.Partition
import Hadar.Model.Mem
import Hadar.Interface.Paging
import Hadar.Analysis.Prefixes
import Hadar.Analysis.Records
import Hadar.Analysis.Contents
import Hadar.Analysis.Engines
import Hadar.Analysis.Stores
import Hadar.Interface.Batching
import Hadar.Analysis.Batching
import Hadar.Analysis.Reading
import Hadar.Analysis.Compacting
import Hadar.Analysis.Refinement
import Hadar.Analysis.Paging
import Hadar.Analysis.Spending
import Hadar.Analysis.Stopping
import Hadar.Analysis.Opening
import Hadar.Interface.Reopening
import Hadar.Interface.Compaction
import Hadar.Analysis.Reclaiming
import Hadar.Analysis.Interrupting
import Hadar.Interface.Restart
import Hadar.Analysis.Restarting
import Hadar.Analysis.Watermark
import Hadar.Interface.Crc32
import Hadar.Interface.Log
import Hadar.Analysis.Codec
import Hadar.Analysis.Directories
import Hadar.Analysis.Scanning
import Hadar.Analysis.Holes
import Hadar.Analysis.Layout
import Hadar.Interface.Damage
import Hadar.Analysis.Damage
import Hadar.Analysis.Appending
import Hadar.Analysis.Tracking
import Hadar.Interface.Crash
import Hadar.Analysis.Reopening
import Hadar.Analysis.Writing
import Hadar.Interface.Shortening
import Hadar.Analysis.Shortening
import Hadar.Analysis.Following
import Hadar.Analysis.Booting
import Hadar.Interface.Counting
import Hadar.Analysis.Counting
import Hadar.Analysis.Crashes
import Hadar.Interface.Bookkeeping
import Hadar.Analysis.Bookkeeping
import Hadar.Interface.Failures
import Hadar.Analysis.Turns
import Hadar.Analysis.Lives
import Hadar.Analysis.Answering
import Hadar.Analysis.Lasting
import Hadar.Interface.Atomicity
import Hadar.Analysis.Atomicity
import Hadar.Interface.Backlog
import Hadar.Analysis.Backlog
import Hadar.Interface.Grouping
import Hadar.Analysis.Grouping
import Hadar.Interface.Transactions
import Hadar.Lib.Exclusion
import Hadar.Analysis.Transactions
import Hadar.Model.Loop
import Hadar.Interface.Mailbox
import Hadar.Analysis.Mailbox
import Hadar.Analysis.Turning
import Hadar.Interface.Ordering
import Hadar.Analysis.Salvaging
import Hadar.Analysis.Trailing
import Hadar.Analysis.Ordering
import Hadar.Interface.Rolling
import Hadar.Analysis.Rolling
import Hadar.Interface.Freeing
import Hadar.Analysis.Freeing
import Hadar.Interface.Serving
import Hadar.Analysis.Serving
import Hadar.Interface.Ranging
import Hadar.Analysis.Ranging
import Hadar.Interface.Retrying
import Hadar.Analysis.Retrying
import Hadar.Lib.Linearizability
import Hadar.Lib.Script
import Hadar.Lib.Sharing
import Hadar.Lib.Turns
import Hadar.Model.Sharing
import Hadar.Interface.Sharing
import Hadar.Analysis.Sharing
import Hadar.Model.Calls
import Hadar.Interface.Calls
import Hadar.Analysis.Calls
import Hadar.Interface.Waiting
import Hadar.Analysis.Waiting
import Hadar.Analysis.Telling
import Hadar.Analysis.Attending
import Hadar.Analysis.Looping
import Hadar.Interface.Durability
import Hadar.Analysis.Durability
import Hadar.Lib.Monitor
import Hadar.Model.Gate
import Hadar.Interface.Gate
import Hadar.Analysis.Gate
import Hadar.Lib.Decimal
import Hadar.Model.Names
import Hadar.Interface.Naming
import Hadar.Analysis.Naming
import Hadar.Analysis.Depicting
