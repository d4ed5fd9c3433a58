import Vtun.ModStack
import Vtun.LinkerStream
import Vtun.TcpProto
import Vtun.Flags
import Vtun.FlagsAlike
import Vtun.FlagsWidth
import Vtun.Lock
import Vtun.Auth
import Vtun.AuthClient
import Vtun.EncryptCtx
import Vtun.EcbSession
import Vtun.EncryptSession
import Vtun.TunnelFrames
import Vtun.InBandBlock
import Vtun.CodecStack
import Vtun.DecodeLength
import Vtun.CutFrame
import Vtun.ConnClose
import Vtun.SplitArgs
import Vtun.Client
import Vtun.CfgFlags
import Vtun.CfgInherit
import Vtun.CfgIsolation
import Vtun.CfgReload
import Vtun.Llist
import Vtun.HostList
import Vtun.NatHack
import Vtun.RunCmd
import Vtun.ShaperRate
import Vtun.KeepAlive
import Vtun.Zlib
import Vtun.KeepIf
import Vtun.CfgLayout
import Vtun.UdpSession
import Vtun.Alarm
import Vtun.CfgValues
import Vtun.FrameLimits
import Vtun.Relay
import Vtun.TcpTunnel
import Vtun.Handshake
import Vtun.HandshakeEnd
import Vtun.Server
import Vtun.Connections
import Vtun.Listener
import Vtun.Carry
import Vtun.DatagramLink
import Vtun.UdpTunnel
import Vtun.UdpFrames
import Vtun.SessionFrames
import Vtun.Compress
import Vtun.CompressedTunnel
import Vtun.Descriptors
