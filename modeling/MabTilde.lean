import MabTilde.Exchange.InputSlot
import MabTilde.Exchange.Lockstep
import MabTilde.Exchange.OutputSlot
import MabTilde.OutputRow
import MabTilde.PerChannel
import MabTilde.LockFreeRingBuffer
import MabTilde.Isolation
import MabTilde.Readiness
import MabTilde.Restart
import MabTilde.Layout
import MabTilde.ViewPointers
import MabTilde.Names
import MabTilde.MonoOutput
import MabTilde.OutputHistory
import MabTilde.HandleRelease
import MabTilde.Exchange.Copies
import MabTilde.Exchange.PlannedLayout
import MabTilde.Exchange.Response
import MabTilde.Drain
import MabTilde.Confinement
import MabTilde.StartUp
import MabTilde.Recovery
import MabTilde.EndToEnd
import MabTilde.Answered
import MabTilde.Relaunch
import MabTilde.Perform
