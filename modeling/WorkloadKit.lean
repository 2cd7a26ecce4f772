import WorkloadKit.Library.System
import WorkloadKit.Library.Simulation
import WorkloadKit.Library.Ring
import WorkloadKit.Library.Bytes
import WorkloadKit.Library.Segment
import WorkloadKit.Library.CChar
import WorkloadKit.Library.CInt
import WorkloadKit.Library.TokenRing
import WorkloadKit.Library.Script
import WorkloadKit.Library.First
import WorkloadKit.Library.Lock
import WorkloadKit.Library.Barrier
import WorkloadKit.Library.Rotation
import WorkloadKit.Library.Pieces
import WorkloadKit.Library.CString
import WorkloadKit.Library.Heap
import WorkloadKit.Library.Loop
import WorkloadKit.Library.Getopt
import WorkloadKit.Library.Rest
import WorkloadKit.Pipeline.State
import WorkloadKit.Pipeline.Theorems.Queue
import WorkloadKit.Pipeline.Theorems.Invariant
import WorkloadKit.Pipeline.Theorems.Delivery
import WorkloadKit.Pipeline.Theorems.Termination
import WorkloadKit.Pipeline.Theorems.Marker
import WorkloadKit.SchedFreq.State
import WorkloadKit.SchedFreq.Theorems.Invariant
import WorkloadKit.SchedFreq.Theorems.RoundRobin
import WorkloadKit.ThreadTree.State
import WorkloadKit.ThreadTree.Theorems.Invariant
import WorkloadKit.ThreadTree.Theorems.Spawn
import WorkloadKit.ThreadTree.Theorems.Join
import WorkloadKit.ThreadTree.Theorems.Stages
import WorkloadKit.Rpc.State
import WorkloadKit.Rpc.Theorems.Lockstep
import WorkloadKit.Rpc.Theorems.Framing
import WorkloadKit.Rpc.Theorems.Session
import WorkloadKit.Rpc.Loop
import WorkloadKit.Rpc.Theorems.Termination
import WorkloadKit.Rpc.Theorems.Progress
import WorkloadKit.Rpc.Accept
import WorkloadKit.Rpc.Theorems.Accept
import WorkloadKit.Rpc.Cache
import WorkloadKit.Rpc.Theorems.Cache
import WorkloadKit.Library.ForkJoin
import WorkloadKit.Calibrate.Hog
import WorkloadKit.Calibrate.Theorems.Hog
import WorkloadKit.Cpm.State
import WorkloadKit.Cpm.Theorems.CriticalPath
import WorkloadKit.Options.State
import WorkloadKit.Options.Theorems.Letters
import WorkloadKit.Pipette.State
import WorkloadKit.Pipette.Theorems.Invariant
import WorkloadKit.Pipette.Theorems.Transfer
import WorkloadKit.Pipette.Theorems.Blocks
import WorkloadKit.Pipette.Theorems.Flow
import WorkloadKit.Pipette.Theorems.EarlyExit
import WorkloadKit.Pipette.Loops
import WorkloadKit.Pipette.Theorems.EndOfFile
import WorkloadKit.Pipette.Theorems.SelfCheck
import WorkloadKit.Pipette.Theorems.Range
import WorkloadKit.Utils.Timespec
import WorkloadKit.Utils.Profile
import WorkloadKit.Utils.Theorems.Timespec
import WorkloadKit.Utils.Theorems.Profile
import WorkloadKit.Utils.Theorems.Save
import WorkloadKit.Utils.Sleep
import WorkloadKit.Inception.State
import WorkloadKit.Inception.Theorems.Chain
import WorkloadKit.Calibrate.State
import WorkloadKit.Calibrate.Theorems.Invariant
import WorkloadKit.Calibrate.Theorems.Average
import WorkloadKit.Spin.State
import WorkloadKit.Spin.Theorems.Invariant
import WorkloadKit.Spin.Theorems.Progress
import WorkloadKit.Spin.Theorems.Rounds
import WorkloadKit.Spin.Memory
import WorkloadKit.Spin.Theorems.Memory
import WorkloadKit.Spin.Theorems.Simulation
import WorkloadKit.LttngSimple.State
import WorkloadKit.LttngSimple.Theorems.Plan
import WorkloadKit.LttngSimple.Theorems.Sessions
import WorkloadKit.LttngSimple.Theorems.Cleanup
import WorkloadKit.LttngSimple.Theorems.Issued
import WorkloadKit.LttngSimple.Theorems.Order
import WorkloadKit.LttngSimple.Theorems.DryRun
import WorkloadKit.LttngSimple.Profiles
import WorkloadKit.LttngSimple.Theorems.Profiles
import WorkloadKit.TcpLoss.State
import WorkloadKit.TcpLoss.Theorems.Verdicts
import WorkloadKit.WkLock.State
import WorkloadKit.WkLock.Theorems.Exclusion
import WorkloadKit.WkLock.Tasks
import WorkloadKit.WkLock.Theorems.Ownership
import WorkloadKit.WkLock.Atomic
import WorkloadKit.WkLock.Theorems.Refinement
import WorkloadKit.KernelLock.State
import WorkloadKit.KernelLock.Theorems.Invariant
import WorkloadKit.KernelLock.Theorems.Progress
import WorkloadKit.Imbalance.State
import WorkloadKit.Imbalance.Theorems.Invariant
import WorkloadKit.Imbalance.Theorems.Iterations
import WorkloadKit.Imbalance.Theorems.Progress
import WorkloadKit.Imbalance.Theorems.Slowest
import WorkloadKit.Cpm3.State
import WorkloadKit.Cpm3.Theorems.Invariant
import WorkloadKit.Cpm3.Theorems.Runs
import WorkloadKit.Pulse.State
import WorkloadKit.Pulse.Theorems.Cpuset
import WorkloadKit.Pulse.Theorems.Pincpu
import WorkloadKit.Pulse.Theorems.Separator
import WorkloadKit.Pulse.Theorems.Dump
import WorkloadKit.Pulse.Main
import WorkloadKit.Pulse.Theorems.Main
import WorkloadKit.Pulse.Theorems.Schedule
import WorkloadKit.Cputemp.State
import WorkloadKit.Cputemp.Theorems.Changes
import WorkloadKit.Cputemp.Theorems.Status
import WorkloadKit.PingPong.Message
import WorkloadKit.PingPong.Theorems.Message
import WorkloadKit.PingPong.Servers
import WorkloadKit.PingPong.Theorems.Workers
import WorkloadKit.PingPong.Theorems.Servers
import WorkloadKit.IoBurst.State
import WorkloadKit.IoBurst.Theorems.Size
import WorkloadKit.SockPair.State
import WorkloadKit.SockPair.Theorems.Ends
import WorkloadKit.SockPair.Descriptors
import WorkloadKit.SockPair.Theorems.Descriptors
import WorkloadKit.Perfuser.State
import WorkloadKit.Perfuser.Theorems.Work
import WorkloadKit.Perfuser.Rounds
import WorkloadKit.Perfuser.Theorems.Thread
import WorkloadKit.Perfuser.Theorems.Rounds
import WorkloadKit.Perfuser.Theorems.Hits
import WorkloadKit.Functrace.State
import WorkloadKit.Functrace.Theorems.Bar
import WorkloadKit.Sigbench.State
import WorkloadKit.Sigbench.Theorems.Sweep
import WorkloadKit.Sigbench.Once
import WorkloadKit.Sigbench.Theorems.Once
import WorkloadKit.Sigbench.Theorems.Elapsed
import WorkloadKit.Deadlock.State
import WorkloadKit.Deadlock.Theorems.Fate
import WorkloadKit.Lockfight.State
import WorkloadKit.Lockfight.Theorems.Exclusion
import WorkloadKit.Library.Signals
import WorkloadKit.Signest.State
import WorkloadKit.Signest.Theorems.Nested
import WorkloadKit.Signest.Theorems.Calls
import WorkloadKit.Signest.Theorems.Runs
