import Mos.Proofs.SegmentAck
import Mos.Proofs.FlowControl
import Mos.Proofs.CallPhases
import Mos.Proofs.FrameAccounting
import Mos.Proofs.PageMap
import Mos.Proofs.SignalMasks
import Mos.Proofs.SignalReturn
import Mos.Proofs.SignalAddressing
import Mos.Proofs.PipeStream
import Mos.Proofs.TmpfsContents
import Mos.Proofs.DescriptorFrame
import Mos.Proofs.DescriptorTable
import Mos.Proofs.Ext2Exhausted
import Mos.Proofs.ProcessTree
import Mos.Proofs.MessageOrder
import Mos.Proofs.MessageBytes
import Mos.Proofs.SemaphoreExclusion
import Mos.Proofs.TerminationFinal
import Mos.Proofs.SchedulerLists
import Mos.Proofs.TtyRing
import Mos.Proofs.TtySettings
import Mos.Proofs.TtyOutput
import Mos.Proofs.LineEditor
import Mos.Proofs.NextHop
import Mos.Proofs.HostileFrames
import Mos.Proofs.DhcpLease
import Mos.Proofs.BufferedInput
import Mos.Proofs.BufferedOutput
import Mos.Proofs.PointerTarget
import Mos.Proofs.EnvironMap
import Mos.Proofs.UserHeap
import Mos.Proofs.WalkAgain
import Mos.Proofs.DirectoryListing
import Mos.Proofs.TerminalInput
import Mos.Proofs.RoundTrip
import Mos.Proofs.KarnRule
import Mos.Proofs.SynOptions
import Mos.Proofs.SynSent
import Mos.Proofs.ReceiveCall
import Mos.Proofs.FlightSize
import Mos.Proofs.UdpChecksum
import Mos.Proofs.AnonymousMapping
import Mos.Proofs.EventQueues
import Mos.Proofs.Ext2Addresses
