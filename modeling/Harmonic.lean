import Harmonic.Lib.Patch
import Harmonic.Lib.Chunks
import Harmonic.Lib.Loop
import Harmonic.Lib.Fifo
import Harmonic.Lib.Lts
import Harmonic.Lib.Disk
import Harmonic.Lib.SortedKeys
import Harmonic.Lib.Cyclic
import Harmonic.Lib.Latest
import Harmonic.RoundTrip
import Harmonic.PlainScan
import Harmonic.Limits
import Harmonic.Bootstrap
import Harmonic.Triggers
import Harmonic.SecondSync
import Harmonic.RunSync
import Harmonic.Interruption
import Harmonic.Progress
import Harmonic.Confinement
import Harmonic.SamePath
import Harmonic.Clients
import Harmonic.Server
import Harmonic.Feed
import Harmonic.BlockSize
import Harmonic.PathCheck
import Harmonic.Lib.Utf8
import Harmonic.ExactPlan
import Harmonic.Differences
import Harmonic.Edited
import Harmonic.SavedTimes
import Harmonic.Lib.Threshold
import Harmonic.Debounce
import Harmonic.Omission
import Harmonic.Platforms
import Harmonic.Depth
import Harmonic.Lib.Rank
import Harmonic.Lib.TaskPool
import Harmonic.Lib.Greedy
import Harmonic.Skipped
import Harmonic.Concurrent
import Harmonic.CarryOut
import Harmonic.Dispatch
import Harmonic.Deadlock
import Harmonic.Termination
import Harmonic.Completion
import Harmonic.Settle
import Harmonic.ServerConfinement
import Harmonic.Service
import Harmonic.Economy
import Harmonic.Lib.Twins
import Harmonic.NextSync
import Harmonic.Secrecy
import Harmonic.WholeFiles
