import SimOs.Sched.Work
import SimOs.Sched.Waiting
import SimOs.Sched.Conservation
import SimOs.Sched.Order
import SimOs.Sched.Priority
import SimOs.Sched.Rounds
import SimOs.Sched.Termination
import SimOs.Lib.Words
import SimOs.Lib.Chain
import SimOs.Lib.Store
import SimOs.Lib.Scan
import SimOs.Lib.Simulation
import SimOs.Lib.Rows
import SimOs.Mm.Demand
import SimOs.Mm.Resident
import SimOs.Mm.Frames
import SimOs.Mm.Exchange
import SimOs.Mm.Fault
import SimOs.Mm.Coverage
import SimOs.Mm.Refault
import SimOs.Mm.Shortage
import SimOs.Mm.Reuse
import SimOs.Mm.RegionBounds
import SimOs.Mm.PteUpdates
import SimOs.Mm.InitPte
import SimOs.Mm.MapRange
import SimOs.Mm.VictimOrder
import SimOs.Mm.SwapCopy
import SimOs.Mm.Release
import SimOs.Mm.Sizes
import SimOs.Mm.AddressSpace
import SimOs.Mm.NewProcess
import SimOs.Mm.MemmapSafe
import SimOs.Mm.Format
import SimOs.Os.RunningList
import SimOs.Os.Shutdown
import SimOs.Os.KillQueues
import SimOs.Os.KillRegions
import SimOs.Os.KillName
import SimOs.Os.Run
import SimOs.Os.Slices
import SimOs.Os.InPlace
import SimOs.Os.Loader
import SimOs.Timer.Barrier
import SimOs.Os.Pace
import SimOs.Os.Completion
import SimOs.Os.Liveness
import SimOs.Os.Idle
import SimOs.Mm.Requests
import SimOs.Os.Syscall
import SimOs.Os.Machine
import SimOs.Os.Program
import SimOs.Os.Isolation
import SimOs.Os.ReadConfig
import SimOs.Os.Input
import SimOs.Os.KillRuns
