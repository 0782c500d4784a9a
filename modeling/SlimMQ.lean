import SlimMQ.Library.Buffer
import SlimMQ.Library.Tokens
import SlimMQ.Library.Wildcard
import SlimMQ.Library.RingBuffer
import SlimMQ.Library.ChainTable
import SlimMQ.Library.EventLoop
import SlimMQ.Library.LinkedList
import SlimMQ.Library.ChainMemory
import SlimMQ.Library.Blocks
import SlimMQ.Library.Arena
import SlimMQ.Wire.Transport
import SlimMQ.Wire.Header
import SlimMQ.Wire.PacketHandler
import SlimMQ.Wire.Published
import SlimMQ.Wire.Frames
import SlimMQ.Topic.TopicTable
import SlimMQ.Topic.Split
import SlimMQ.Topic.Matching
import SlimMQ.Topic.RemoveDuplicates
import SlimMQ.Topic.TopicMemory
import SlimMQ.Topic.TopicLayout
import SlimMQ.Topic.TopicRefinement
import SlimMQ.Broker.PendingTable
import SlimMQ.Broker.Broker
import SlimMQ.Broker.Handshake
import SlimMQ.Broker.Suppression
import SlimMQ.Broker.Forwarding
import SlimMQ.Broker.Lossy
import SlimMQ.Client.EventQueue
import SlimMQ.Client.EventMemory
import SlimMQ.Client.Qos2Table
import SlimMQ.Client.Client
import SlimMQ.Client.Session
import SlimMQ.Client.Soundness
import SlimMQ.System.Leftovers
import SlimMQ.System.System
import SlimMQ.System.Delivery
import SlimMQ.System.Losses
import SlimMQ.Client.Acknowledgements
import SlimMQ.System.Tables
import SlimMQ.System.TableMemory
import SlimMQ.System.BrokerMemory
import SlimMQ.Client.Process
import SlimMQ.Client.Completion
import SlimMQ.Client.Sizes
import SlimMQ.Wire.RoundTrip
import SlimMQ.Broker.Ledger
import SlimMQ.Topic.Registration
import SlimMQ.Topic.Tree
import SlimMQ.Broker.Independence
import SlimMQ.Broker.Duplicates
import SlimMQ.System.Reuse
import SlimMQ.System.Runs
import SlimMQ.System.Provenance
import SlimMQ.System.Receive
import SlimMQ.System.Fanout
import SlimMQ.System.Order
import SlimMQ.System.Recovery
import SlimMQ.Client.Budget
import SlimMQ.Client.Handover
import SlimMQ.Client.Residue
