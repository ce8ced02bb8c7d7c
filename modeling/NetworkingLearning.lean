import NetworkingLearning.Paths.Walk
import NetworkingLearning.Paths.Labelling
import NetworkingLearning.Paths.Settle
import NetworkingLearning.Paths.Exchange
import NetworkingLearning.Paths.Canonical
import NetworkingLearning.Machine.Words
import NetworkingLearning.Routing.Graph
import NetworkingLearning.Routing.LinkState
import NetworkingLearning.Routing.Search
import NetworkingLearning.Routing.LinkStateTables
import NetworkingLearning.Routing.DistanceVector
import NetworkingLearning.Routing.Vectors
import NetworkingLearning.Routing.Rounds
import NetworkingLearning.Routing.DistanceVectorTables
import NetworkingLearning.Routing.Ties
import NetworkingLearning.Routing.Sums
import NetworkingLearning.Routing.Messages
import NetworkingLearning.Routing.Phases
import NetworkingLearning.Routing.Splitting
import NetworkingLearning.Routing.Programs
import NetworkingLearning.Routing.Canonical
import NetworkingLearning.Routing.Passes
import NetworkingLearning.Machine.Runs
import NetworkingLearning.Machine.Inputs
import NetworkingLearning.Machine.Buffers
import NetworkingLearning.Text.Search
import NetworkingLearning.Text.Decimal
import NetworkingLearning.Text.Strings
import NetworkingLearning.Text.Lines
import NetworkingLearning.Text.Fields
import NetworkingLearning.Routing.Files
import NetworkingLearning.Routing.Outputs
import NetworkingLearning.Routing.Reported
import NetworkingLearning.Heaps.Sift
import NetworkingLearning.Heaps.Heapq
import NetworkingLearning.Csma.Simulation
import NetworkingLearning.Csma.Configs
import NetworkingLearning.Csma.Times
import NetworkingLearning.Csma.Collisions
import NetworkingLearning.Csma.Slots
import NetworkingLearning.Csma.Draws
import NetworkingLearning.Csma.Safety
import NetworkingLearning.Csma.Counts
import NetworkingLearning.Csma.Residue
import NetworkingLearning.Csma.Slotted
import NetworkingLearning.Csma.Accounts
import NetworkingLearning.Csma.Reports
import NetworkingLearning.Transfer.Cwnd
import NetworkingLearning.Transfer.CwndRuns
import NetworkingLearning.Transfer.Sender
import NetworkingLearning.Transfer.SenderRuns
import NetworkingLearning.Transfer.Highest
import NetworkingLearning.Transfer.Batching
import NetworkingLearning.Transfer.Stall
import NetworkingLearning.Transfer.Packets
import NetworkingLearning.Transfer.Receiver
import NetworkingLearning.Transfer.Handling
import NetworkingLearning.Transfer.Strangers
import NetworkingLearning.Transfer.Reassembly
import NetworkingLearning.Transfer.Session
import NetworkingLearning.Transfer.Completion
import NetworkingLearning.Transfer.Integrity
import NetworkingLearning.Transfer.Chunking
import NetworkingLearning.Transfer.Classified
import NetworkingLearning.Transfer.Network
import NetworkingLearning.Transfer.Recovery
import NetworkingLearning.Transfer.InOrder
import NetworkingLearning.Transfer.Growth
import NetworkingLearning.Streams.SizedFile
import NetworkingLearning.Http.Headers
import NetworkingLearning.Http.Responses
import NetworkingLearning.Http.Building
import NetworkingLearning.Http.Sending
import NetworkingLearning.Http.Fields
import NetworkingLearning.Http.Downloads
import NetworkingLearning.Http.Closing
import NetworkingLearning.Http.Requests
import NetworkingLearning.Http.Urls
import NetworkingLearning.Http.Serving
import NetworkingLearning.Http.Fetching
