import ConsensusDag.Lib.ParentGraph
import ConsensusDag.Lib.QuorumFrame
import ConsensusDag.Lib.AssocTable
import ConsensusDag.Lib.Emission
import ConsensusDag.Lib.CausalOrder
import ConsensusDag.Lib.HalvingRound
import ConsensusDag.Lib.ByteEncoding
import ConsensusDag.EventDag
import ConsensusDag.Finality
import ConsensusDag.Delivery
import ConsensusDag.DeliveryOrder
import ConsensusDag.Redelivery
import ConsensusDag.LamportClock
import ConsensusDag.SyncDelivery
import ConsensusDag.Authenticity
import ConsensusDag.Forks
import ConsensusDag.Transactions
import ConsensusDag.Unwraps
import ConsensusDag.WakeUp
import ConsensusDag.StreamSafety
import ConsensusDag.OwnEvents
import ConsensusDag.Reopen
import ConsensusDag.FailedInsert
import ConsensusDag.StoreViews
import ConsensusDag.TableLoops
import ConsensusDag.GossipSelection
import ConsensusDag.ClockBounds
import ConsensusDag.PeerLists
import ConsensusDag.PeerSelection
import ConsensusDag.FrameNumbers
import ConsensusDag.KeyEncoding
import ConsensusDag.Consumers
import ConsensusDag.NetworkDag
import ConsensusDag.Lib.OrderedBroadcast
import ConsensusDag.FinalLog
import ConsensusDag.Schedule
import ConsensusDag.Agreement
import ConsensusDag.Broadcast
import ConsensusDag.Convergence
import ConsensusDag.StreamOrder
import ConsensusDag.Lib.QuorumRounds
import ConsensusDag.Progress
import ConsensusDag.Lib.LockOrder
import ConsensusDag.Locks
import ConsensusDag.Lifecycle
import ConsensusDag.Poisoning
import ConsensusDag.Survival
import ConsensusDag.NoPanic
import ConsensusDag.Exchange
import ConsensusDag.Liveness
