import WarpSim.Proofs.Barrier
import WarpSim.Proofs.Geometry
import WarpSim.Proofs.Codec
import WarpSim.Proofs.BlockOrder
import WarpSim.Proofs.ScalarRuns
import WarpSim.Proofs.Schedules
import WarpSim.Proofs.Termination
import WarpSim.Proofs.Checked
import WarpSim.Proofs.Histories
import WarpSim.Proofs.Assembly
import WarpSim.Proofs.Symbols
import WarpSim.Proofs.Observables
import WarpSim.Proofs.Arithmetic
import WarpSim.Proofs.LaneOrder
import WarpSim.Proofs.Guards
import WarpSim.Proofs.Sentinel
import WarpSim.Proofs.Positions
import WarpSim.Proofs.Language
import WarpSim.Proofs.Literals
import WarpSim.Proofs.Relabel
import WarpSim.Proofs.Diagnostics
import WarpSim.Proofs.RoundTrip
import WarpSim.Proofs.Arena
import WarpSim.Proofs.BlockSets
import WarpSim.Proofs.Alone
import WarpSim.Proofs.Intervals
import WarpSim.Proofs.Rounds
import WarpSim.Proofs.Plans
import WarpSim.Proofs.Independent
import WarpSim.Proofs.Straight
import WarpSim.Proofs.Routes
import WarpSim.Kernels
import WarpSim.Buffers
import WarpSim.Lib.IntBits
import WarpSim.Golden
import WarpSim.Proofs.Kernels
import WarpSim.Proofs.Rows
import WarpSim.Proofs.Vecadd
import WarpSim.Proofs.Elementwise
import WarpSim.Proofs.Golden
import WarpSim.Proofs.Torture
import WarpSim.Proofs.EarlyExit
import WarpSim.Proofs.Reduce
import WarpSim.Proofs.Matmul
import WarpSim.Harness
import WarpSim.Proofs.Harness
import WarpSim.Proofs.Runs
import WarpSim.Proofs.Room
import WarpSim.Proofs.Threads
import WarpSim.Proofs.Faults
