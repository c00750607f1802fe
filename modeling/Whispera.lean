import Whispera.Theorems.Splice
import Whispera.Theorems.Reuse
import Whispera.Theorems.Relay
import Whispera.Theorems.Revocation
import Whispera.Theorems.Dialing
import Whispera.Theorems.FecBlock
import Whispera.Theorems.CamoConn
import Whispera.Theorems.Subscription
import Whispera.Theorems.Outbound
import Whispera.Theorems.ShapePads
import Whispera.Theorems.KillSwitch
import Whispera.Theorems.ConfigWatch
import Whispera.Theorems.ServeConn
import Whispera.Theorems.RouterCalls
import Whispera.Theorems.Filler
import Whispera.Theorems.IdleSet
import Whispera.Theorems.Lifecycle
import Whispera.Theorems.UserCommands
import Whispera.Theorems.UserWatch
import Whispera.Theorems.AltAuth
import Whispera.Theorems.DiskStreams
import Whispera.Theorems.DatagramLane
import Whispera.Theorems.StateMachine
import Whispera.Theorems.Liveness
import Whispera.Theorems.Socks5
import Whispera.Theorems.TokenSet
import Whispera.Theorems.ReplyTargets
import Whispera.Theorems.UdpStreams
import Whispera.Theorems.CamoKeys
import Whispera.Theorems.TunnelPool
import Whispera.Theorems.UpdateFiles
import Whispera.Theorems.QuicProbe
import Whispera.Theorems.FragmentPeek
import Whispera.Theorems.FecLeak
import Whispera.Theorems.FecPool
import Whispera.Theorems.UdpFrames
import Whispera.Theorems.DatagramAddr
import Whispera.Theorems.GeoIP
import Whispera.Theorems.SplitRules
import Whispera.Theorems.DnsWire
import Whispera.Theorems.RouterCompile
import Whispera.Theorems.Verdicts
import Whispera.Theorems.DnsUpstream
import Whispera.Theorems.Strategy
import Whispera.Theorems.OutboundTables
import Whispera.Theorems.TcpTransport
import Whispera.Theorems.EventBus
import Whispera.Theorems.DecoyRate
