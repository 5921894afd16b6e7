import Cathole.Lib.Words
import Cathole.Lib.Table
import Cathole.Lib.Window
import Cathole.Lib.Disk
import Cathole.Lib.Interruption
import Cathole.Lib.Matching
import Cathole.Lib.Ownership
import Cathole.Lib.Pool
import Cathole.Lib.Simulation
import Cathole.Fault
import Cathole.Address
import Cathole.Config
import Cathole.Crypto.Replay
import Cathole.Crypto.Datagram
import Cathole.Crypto.Framing
import Cathole.Crypto.Handshake
import Cathole.Crypto.Bridge
import Cathole.Datagram.Input
import Cathole.Datagram.Expiry
import Cathole.Datagram.Delivery
import Cathole.Datagram.Endpoint
import Cathole.Datagram.Nonces
import Cathole.Datagram.Tunnel
import Cathole.Datagram.Passage
import Cathole.Transport
import Cathole.Proxy.Client
import Cathole.Proxy.Server
import Cathole.Proxy.Shutdown
import Cathole.Proxy.Lifetime
import Cathole.Proxy.Queues
import Cathole.Proxy.Order
import Cathole.Proxy.Isolation
import Cathole.Proxy.Session
import Cathole.Proxy.Forwarding
import Cathole.Proxy.Legs
import Cathole.Proxy.RoundTrip
import Cathole.Proxy.Agreement
import Cathole.Proxy.Readiness
import Cathole.Proxy.Run
import Cathole.Proxy.Backoff
import Cathole.Proxy.Dialer
import Cathole.Proxy.Setup
import Cathole.Proxy.Contexts
import Cathole.Proxy.Connection
import Cathole.Supervisor
import Cathole.Reload
import Cathole.Process
import Cathole.Restart
import Cathole.Identities
