import NetGet.Verification.AgentQueue.Rendezvous
import NetGet.Verification.AppState.Clients
import NetGet.Verification.AppState.Connections
import NetGet.Verification.AppState.Servers
import NetGet.Verification.AppState.TaskNames
import NetGet.Verification.Bfd.Detection
import NetGet.Verification.Bolt.Transparency
import NetGet.Verification.Breaker.Generations
import NetGet.Verification.Bson.Agreement
import NetGet.Verification.Capnp.Copy
import NetGet.Verification.Capnp.Reader
import NetGet.Verification.ClickHouse.Budget
import NetGet.Verification.Coap.Registry
import NetGet.Verification.Coap.Uploads
import NetGet.Verification.ConcurrencyGate.Service
import NetGet.Verification.ConcurrencyGate.Wakeup
import NetGet.Verification.Conversation.Trim
import NetGet.Verification.Conversation.Window
import NetGet.Verification.CtapHid.Transport
import NetGet.Verification.Deflate.Violations
import NetGet.Verification.Devp2p.Answers
import NetGet.Verification.Fix.Bodies
import NetGet.Verification.Gsm.Timestamp
import NetGet.Verification.History.Budget
import NetGet.Verification.Libp2pWire.Base58
import NetGet.Verification.Libp2pWire.Protobuf
import NetGet.Verification.LineReader.Segmentation
import NetGet.Verification.Lorawan.Delivery
import NetGet.Verification.Netconf.Transparency
import NetGet.Verification.OpenVpn.Progress
import NetGet.Verification.Per.RoundTrip
import NetGet.Verification.PubSub.Publish
import NetGet.Verification.Pulsar.Bounds
import NetGet.Verification.Pulsar.Conservation
import NetGet.Verification.Pulsar.Dispatch
import NetGet.Verification.Pulsar.Exclusive
import NetGet.Verification.RedisKeys.Glob
import NetGet.Verification.Resident.Pairing
import NetGet.Verification.Resp.Stability
import NetGet.Verification.Rlp.Canonical
import NetGet.Verification.Sanitize.Idempotence
import NetGet.Verification.TaskRunner.Cap
import NetGet.Verification.Tcp.Order
import NetGet.Verification.Tftp.Upload
import NetGet.Verification.TorRelay.Windows
import NetGet.Verification.UsbMsc.Write
import NetGet.Verification.WebSocket.Order
import NetGet.Verification.Yamux.Receiver
import NetGet.Verification.Yamux.Sender
import NetGet.Verification.Yamux.Session
