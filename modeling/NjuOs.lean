import NjuOs.Lib.Bytes
import NjuOs.Lib.Crossing
import NjuOs.Lib.LastWrite
import NjuOs.Libkvdb.Basic
import NjuOs.Lib.Framing
import NjuOs.Libkvdb.Log
import NjuOs.Libkvdb.Spec
import NjuOs.Libkvdb.Parse
import NjuOs.Libkvdb.Session
import NjuOs.Libkvdb.Reopen
import NjuOs.Libkvdb.Torn
import NjuOs.Libkvdb.FailedPut
import NjuOs.Libkvdb.Retry
import NjuOs.Libkvdb.CloseLoss
import NjuOs.Libkvdb.Stores
import NjuOs.Libkvdb.Handles
import NjuOs.Lib.Run
import NjuOs.Lib.FdTable
import NjuOs.Lib.Linked
import NjuOs.Lib.Tiling
import NjuOs.Lib.Ledger
import NjuOs.Httpd.Basic
import NjuOs.Httpd.Close
import NjuOs.Httpd.Workers
import NjuOs.Httpd.Drain
import NjuOs.Lib.Storage
import NjuOs.Httpd.Request
import NjuOs.Lib.Paths
import NjuOs.Httpd.Script
import NjuOs.Httpd.Relay
import NjuOs.Httpd.Answers
import NjuOs.Mymalloc.Basic
import NjuOs.Mymalloc.Taken
import NjuOs.Mymalloc.Calls
import NjuOs.Mymalloc.Deadlock
import NjuOs.Mymalloc.Heap
import NjuOs.Mymalloc.Steps
import NjuOs.Mymalloc.Tiled
import NjuOs.Mymalloc.Granted
import NjuOs.Mymalloc.FreeFirst
import NjuOs.Mymalloc.Double
import NjuOs.Mymalloc.Progress
import NjuOs.LabyrinthGame.Basic
import NjuOs.LabyrinthGame.SaveLoad
import NjuOs.LabyrinthGame.Load
import NjuOs.LabyrinthGame.Moves
import NjuOs.Lib.Search
import NjuOs.LabyrinthGame.Connected
import NjuOs.LabyrinthGame.Play
import NjuOs.LabyrinthGame.Files
import NjuOs.LabyrinthGame.Rules
import NjuOs.LabyrinthFrontend.Basic
import NjuOs.LabyrinthFrontend.Hotseat
import NjuOs.LabyrinthOnline.Basic
import NjuOs.LabyrinthOnline.Players
import NjuOs.LabyrinthOnline.Play
import NjuOs.TestKit.Register
import NjuOs.TestKit.Worker
import NjuOs.Lib.Preorder
import NjuOs.Lib.Outline
import NjuOs.Pstree.Basic
import NjuOs.Pstree.Tree
import NjuOs.Lib.Stdio
import NjuOs.Lib.Scanf
import NjuOs.Pstree.ReadProc
import NjuOs.Pstree.Printed
import NjuOs.Pstree.Program
import NjuOs.Fsrecov.Basic
import NjuOs.Fsrecov.Segments
import NjuOs.Fsrecov.Bookkeeping
import NjuOs.Fsrecov.Kinds
import NjuOs.Fsrecov.Addresses
import NjuOs.Fsrecov.Inside
import NjuOs.Lib.Greedy
import NjuOs.Fsrecov.Matching
import NjuOs.Lib.Scanner
import NjuOs.Sperf.Basic
import NjuOs.Lib.Tally
import NjuOs.Sperf.Table
import NjuOs.Sperf.Updates
import NjuOs.Sperf.Screens
import NjuOs.Sperf.Launch
import NjuOs.Sperf.Lines
import NjuOs.Sperf.Accounts
import NjuOs.Sperf.Steps
import NjuOs.Sperf.Arrays
import NjuOs.Lib.Qsort
import NjuOs.Sperf.Display
import NjuOs.Sperf.Others
import NjuOs.Sperf.Resync
import NjuOs.Lib.Prog
import NjuOs.Lib.Pool
import NjuOs.Gpt.Basic
import NjuOs.Lib.Slice
import NjuOs.Gpt.Footprint
import NjuOs.Gpt.Interleave
import NjuOs.Gpt.Rows
import NjuOs.Gpt.Heads
import NjuOs.Gpt.Batch
import NjuOs.Gpt.Arena
import NjuOs.Gpt.Forward
import NjuOs.Gpt.Agree
import NjuOs.Gpt.Causality
import NjuOs.Gpt.Generation
import NjuOs.Gpt.Checkpoint
import NjuOs.Gpt.Sampling
import NjuOs.Lib.Softmax
import NjuOs.Gpt.Softmax
import NjuOs.Gpt.Tokens
import NjuOs.Fsrecov.LongName
import NjuOs.Fsrecov.Recovered
import NjuOs.Fsrecov.Groups
import NjuOs.Fsrecov.Followed
import NjuOs.Fsrecov.Names
import NjuOs.Fsrecov.Program
import NjuOs.Crepl.Basic
import NjuOs.Crepl.Session
import NjuOs.Crepl.Stale
import NjuOs.Crepl.Lines
import NjuOs.Crepl.Interpreter
