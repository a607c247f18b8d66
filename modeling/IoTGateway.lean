import IoTGateway.Lib.Loop
import IoTGateway.Lib.History
import IoTGateway.Lib.Transition
import IoTGateway.Lib.Progress
import IoTGateway.Lib.Delimited
import IoTGateway.Lib.Numeral
import IoTGateway.Lib.Authority
import IoTGateway.Lib.LinkFormat
import IoTGateway.Lib.LinkedList
import IoTGateway.Lib.Register
import IoTGateway.Lib.DeltaQueue
import IoTGateway.Lib.Retry
import IoTGateway.Lib.Ledger
import IoTGateway.Lib.BinaryHeap
import IoTGateway.Lib.IdPool
import IoTGateway.Lib.Refinement
import IoTGateway.Lib.Isolation
import IoTGateway.Memory
import IoTGateway.Message
import IoTGateway.Platform
import IoTGateway.Query
import IoTGateway.Address
import IoTGateway.Resource
import IoTGateway.Directory
import IoTGateway.HashTable
import IoTGateway.ResourceTable
import IoTGateway.SendQueue
import IoTGateway.Services
import IoTGateway.TimerHeap
import IoTGateway.TimerQueue
import IoTGateway.Reactor
import IoTGateway.Gateway
import IoTGateway.Reference
import IoTGateway.Proofs.QueryScan
import IoTGateway.Proofs.QueryParameters
import IoTGateway.Proofs.QueryOptions
import IoTGateway.Proofs.QuerySafety
import IoTGateway.Proofs.Address
import IoTGateway.Proofs.BufferBounds
import IoTGateway.Proofs.DefaultContext
import IoTGateway.Proofs.Attributes
import IoTGateway.Proofs.Publication
import IoTGateway.Proofs.DirectoryStep
import IoTGateway.Proofs.DirectoryStability
import IoTGateway.Proofs.DirectoryTrace
import IoTGateway.Proofs.DirectoryMap
import IoTGateway.Proofs.FailedRegistration
import IoTGateway.Proofs.EndpointRegistry
import IoTGateway.Proofs.Refresh
import IoTGateway.Proofs.Lifetime
import IoTGateway.Proofs.Locations
import IoTGateway.Proofs.RetransmissionLoop
import IoTGateway.Proofs.Retransmission
import IoTGateway.Proofs.TimerDelay
import IoTGateway.Proofs.Timers
import IoTGateway.Proofs.RetransmissionRun
import IoTGateway.Proofs.HashChains
import IoTGateway.Proofs.HashTable
import IoTGateway.Proofs.HashRun
import IoTGateway.Proofs.HashLoad
import IoTGateway.Proofs.ResourceTable
import IoTGateway.Proofs.TimerSifts
import IoTGateway.Proofs.TimerHeap
import IoTGateway.Proofs.TimerOperations
import IoTGateway.Proofs.TimerQueue
import IoTGateway.Proofs.Expiration
import IoTGateway.Proofs.SvcLoop
import IoTGateway.Proofs.Shutdown
import IoTGateway.Proofs.StopProgress
