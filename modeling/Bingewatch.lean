import Bingewatch.Foundation.Chain
import Bingewatch.Foundation.Transition
import Bingewatch.Foundation.LinkedList
import Bingewatch.Foundation.Conveyor
import Bingewatch.Foundation.Area
import Bingewatch.Foundation.Fairness
import Bingewatch.Foundation.Parts
import Bingewatch.Foundation.Progress
import Bingewatch.Foundation.Sections
import Bingewatch.Foundation.Separated
import Bingewatch.Foundation.Routes
import Bingewatch.Machine.Descriptor
import Bingewatch.Buffer.BlockList
import Bingewatch.Buffer.BlockRing
import Bingewatch.Buffer.FixedBlock
import Bingewatch.Buffer.FixedBlockOrder
import Bingewatch.Buffer.FixedBlockQueue
import Bingewatch.Buffer.FixedBlockAccept
import Bingewatch.Buffer.HandleQueue
import Bingewatch.Buffer.RingBuf
import Bingewatch.Buffer.RingStored
import Bingewatch.Buffer.RingShape
import Bingewatch.Buffer.RingQueue
import Bingewatch.Buffer.RingInit
import Bingewatch.Buffer.RingStop
import Bingewatch.Buffer.RingFailure
import Bingewatch.Buffer.RingMarks
import Bingewatch.Buffer.RingThreads
import Bingewatch.Buffer.RingGrowth
import Bingewatch.Buffer.RingOrder
import Bingewatch.Buffer.RingCount
import Bingewatch.Buffer.RingZeroCopy
import Bingewatch.Buffer.FixedBlockArgs
import Bingewatch.Buffer.Partition
import Bingewatch.Machine.Lifetime
import Bingewatch.Machine.Registry
import Bingewatch.Machine.Kinds
import Bingewatch.Machine.Destroy
import Bingewatch.Machine.Metrics
import Bingewatch.Machine.Accounting
import Bingewatch.Machine.Timer
import Bingewatch.Machine.Disable
import Bingewatch.Stream.State
import Bingewatch.Stream.Status
import Bingewatch.Stream.Segment
import Bingewatch.Stream.Pipeline
import Bingewatch.Stream.Delivery
import Bingewatch.Stream.Places
import Bingewatch.Stream.Measure
import Bingewatch.Stream.Beside
import Bingewatch.Stream.Ending
import Bingewatch.Stream.Breakdown
import Bingewatch.Stream.SharedRings
import Bingewatch.Stream.Branches
import Bingewatch.Stream.BranchDelivery
import Bingewatch.Stream.BranchBreakdown
import Bingewatch.Stream.Tee
import Bingewatch.Stream.BranchTees
import Bingewatch.Stream.Source
import Bingewatch.Stream.Stopping
import Bingewatch.Filter.ReadFilters
import Bingewatch.Filter.Chains
import Bingewatch.Filter.Feedback
import Bingewatch.Filter.Call
import Bingewatch.Filter.Conversion
import Bingewatch.Filter.Directions
import Bingewatch.Filter.Limiter
import Bingewatch.Filter.Retry
import Bingewatch.Filter.Refusal
import Bingewatch.Stream.Table
import Bingewatch.Stream.ConvertedWrite
import Bingewatch.File.Machine
import Bingewatch.File.Handles
import Bingewatch.File.Rotation
import Bingewatch.File.FullDisk
import Bingewatch.File.Numbering
import Bingewatch.File.Directories
import Bingewatch.File.DirRotation
import Bingewatch.File.ReadName
import Bingewatch.Filter.Disabling
import Bingewatch.Socket.Locks
import Bingewatch.Socket.Receive
import Bingewatch.Fifo.Transfer
import Bingewatch.Sdr.RxMachine
import Bingewatch.Sdr.Delivery
import Bingewatch.Sdr.Waiting
import Bingewatch.Sdr.Protocol
import Bingewatch.Sdr.Reset
import Bingewatch.Sdr.EndStatus
import Bingewatch.Sdr.Devices
import Bingewatch.Sdr.RtlRead
import Bingewatch.Sdr.SoapyStart
import Bingewatch.Foundation.Refinement
import Bingewatch.Buffer.RingHeld
import Bingewatch.Buffer.RingTurns
import Bingewatch.Stream.SourceSegment
import Bingewatch.Stream.SourceDelivery
import Bingewatch.Foundation.Pieces
import Bingewatch.Sdr.HwRead
