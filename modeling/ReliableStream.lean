import ReliableStream.Bytes
import ReliableStream.Queue
import ReliableStream.Checksum
import ReliableStream.Time
import ReliableStream.Sequence
import ReliableStream.Error
import ReliableStream.Segment.Flags
import ReliableStream.Segment.Basic
import ReliableStream.Segment.Wire
import ReliableStream.Segment.Numbering
import ReliableStream.Config
import ReliableStream.Teardown
import ReliableStream.Receiving.Fragment
import ReliableStream.Receiving.Delivery
import ReliableStream.Receiving.Reassembly
import ReliableStream.Sending.Packet
import ReliableStream.Sending.Inflight
import ReliableStream.Sending.Outbound
import ReliableStream.Endpoint.Basic
import ReliableStream.Endpoint.InMemory
import ReliableStream.Endpoint.Scripted
import ReliableStream.Link
import ReliableStream.Connection.Basic
import ReliableStream.Connection.Sender
import ReliableStream.Connection.Receiver
import ReliableStream.Connection.Timer
import ReliableStream.Host.Basic
import ReliableStream.Host.Sweep
import ReliableStream.Session
import ReliableStream.Simulation
import ReliableStream.Proofs.Tiling
import ReliableStream.Proofs.Stream
import ReliableStream.Proofs.Segment.Wire
import ReliableStream.Proofs.Segment.Decoding
import ReliableStream.Proofs.Backoff
import ReliableStream.Proofs.Checksum
import ReliableStream.Proofs.OnesComplement
import ReliableStream.Proofs.Segment.Corruption
import ReliableStream.Proofs.Link
import ReliableStream.Proofs.Receiving.Fragment
import ReliableStream.Proofs.Receiving.Delivery
import ReliableStream.Proofs.Receiving.Reassembly
import ReliableStream.Proofs.Receiving.Retention
import ReliableStream.Proofs.Receiving.Resequencing
import ReliableStream.Proofs.Receiving.Alignment
import ReliableStream.Proofs.Receiving.Window
import ReliableStream.Proofs.Receiving.Bounds
import ReliableStream.Proofs.Receiving.Finality
import ReliableStream.Proofs.Receiving.Range
import ReliableStream.Proofs.Receiving.Redelivery
import ReliableStream.Proofs.Sending.Source
import ReliableStream.Proofs.Sending.Inflight
import ReliableStream.Proofs.Sending.Conveys
import ReliableStream.Proofs.Segment.Numbering
import ReliableStream.Proofs.Sending.Accounting
import ReliableStream.Proofs.Sending.Resends
import ReliableStream.Proofs.Sending.Marks
import ReliableStream.Proofs.Endpoint.Monitored
import ReliableStream.Proofs.Connection.Step
import ReliableStream.Proofs.Connection.Deed
import ReliableStream.Proofs.Connection.Phase
import ReliableStream.Proofs.Connection.Numbered
import ReliableStream.Proofs.Connection.Orderly
import ReliableStream.Proofs.Connection.Timer
import ReliableStream.Proofs.Endpoint.Recorded
import ReliableStream.Proofs.Connection.Sending
import ReliableStream.Proofs.Connection.Receiving
import ReliableStream.Proofs.Connection.Traffic
import ReliableStream.Proofs.Connection.Conservation
import ReliableStream.Proofs.Connection.Windows
import ReliableStream.Proofs.Connection.Stall
import ReliableStream.Proofs.Connection.Attendance
import ReliableStream.Proofs.Connection.Waiting
import ReliableStream.Proofs.Connection.Teardown
import ReliableStream.Proofs.Connection.Stranding
import ReliableStream.Proofs.Connection.Acknowledgment
import ReliableStream.Proofs.Connection.Reply
import ReliableStream.Proofs.Connection.Discipline
import ReliableStream.Proofs.Connection.Rest
import ReliableStream.Proofs.Connection.Schedule
import ReliableStream.Proofs.Host.Sweep
import ReliableStream.Proofs.Host.Lifecycle
import ReliableStream.Proofs.Host.Rest
import ReliableStream.Proofs.Host.Overlap
import ReliableStream.Proofs.Session.Command
import ReliableStream.Proofs.Session.Settled
import ReliableStream.Proofs.Exchange
import ReliableStream.Proofs.Transfer
import ReliableStream.Proofs.FlowControl
