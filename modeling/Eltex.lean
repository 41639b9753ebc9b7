import Eltex.Lib.CString
import Eltex.Lib.ByteMem
import Eltex.Lib.SearchTree
import Eltex.Lib.Run
import Eltex.Lib.FirstWins
import Eltex.ProxyServer.Packet
import Eltex.ProxyServer.DnsTree
import Eltex.ProxyServer.Hooks
import Eltex.ProxyServer.Reply
import Eltex.ProxyServer.Cache
import Eltex.Lib.WireName
import Eltex.ProxyServer.Names
import Eltex.ProxyServer.Answer
import Eltex.ProxyServer.Access
import Eltex.Lib.Files
import Eltex.TextManager.Copy
import Eltex.TextManager.PrintFiles
import Eltex.TextManager.Navigate
import Eltex.Lib.Outcome
import Eltex.SelectPollEpoll.Loops
import Eltex.TextManager.Enter
import Eltex.TextManager.Listings
import Eltex.TextManager.Panels
import Eltex.SelectPollEpoll.Registered
import Eltex.Lib.SkipScan
import Eltex.SelectPollEpoll.Served
import Eltex.Lib.MsgQueue
import Eltex.UdpClientServer.Server
import Eltex.UdpClientServer.Requests
import Eltex.UdpClientServer.Isolation
import Eltex.IoctlDev.Device
import Eltex.IoctlDev.Terminated
import Eltex.IoctlDev.ReadStream
import Eltex.ProxyServer.Inserted
import Eltex.TextManager.Popup
import Eltex.TextManager.Selection
import Eltex.Lib.RecordWalk
import Eltex.NetlinkRt.Recv
import Eltex.NetlinkRt.Walk
import Eltex.NetlinkRt.Messages
import Eltex.NetlinkRt.Dump
import Eltex.Lib.Icmp
import Eltex.Lib.Rounds
import Eltex.Ping.Replies
import Eltex.Traceroute.Hops
import Eltex.Lib.OnesComplement
import Eltex.ProxyServer.Datagram
import Eltex.ProxyServer.Checksum
import Eltex.Lib.ReusedBuffer
import Eltex.UdpTcpClientServer.Echo
import Eltex.SelectPollEpoll.Printed
import Eltex.IoctlDev.Stores
import Eltex.IoctlDev.NthByte
import Eltex.ProcDev.Procfs
import Eltex.ProcDev.Readers
import Eltex.NetlinkRt.Lines
import Eltex.Checksums
import Eltex.EchoRequests
import Eltex.OwnReplies
import Eltex.RawSocket.IpHeader
import Eltex.Lib.Footprint
import Eltex.Sniffer.Callback
import Eltex.IoctlDev.Client
import Eltex.KernelPing.CreatePacket
import Eltex.Lib.Schedule
import Eltex.Shadow.KernelShadow
import Eltex.Shadow.UserShadow
import Eltex.UdpClientServer.Progress
import Eltex.ProxyServer.Memory
import Eltex.ProxyServer.Resolution
import Eltex.UdpTcpClientServer.TcpClient
import Eltex.LateReplies
import Eltex.TextManager.CopyHangs
import Eltex.TextManager.ProgressLine
import Eltex.UdpClientServer.Shutdown
import Eltex.Lib.Answered
import Eltex.Ping.OverNetwork
import Eltex.Traceroute.Route
