import SmartHAProxy.Acl.Cond
import SmartHAProxy.Base64.Strict
import SmartHAProxy.Buf.Refine
import SmartHAProxy.Buf.Replace
import SmartHAProxy.Buf.Varint
import SmartHAProxy.Cache.Invalidate
import SmartHAProxy.Cache.Variants
import SmartHAProxy.Cfg.Grammar
import SmartHAProxy.Dns.Additional
import SmartHAProxy.Dns.Coherent
import SmartHAProxy.Dns.Reject
import SmartHAProxy.Fcgi.RoundTrip
import SmartHAProxy.Freq.Limit
import SmartHAProxy.H1.Fast
import SmartHAProxy.H1.Framing
import SmartHAProxy.H2.Forward
import SmartHAProxy.H2.Reassemble
import SmartHAProxy.H2.WindowRun
import SmartHAProxy.Hpack.Updates
import SmartHAProxy.Http.Agree
import SmartHAProxy.Http.CookieList
import SmartHAProxy.Http.SchemeBased
import SmartHAProxy.Htx.Transfer
import SmartHAProxy.Lb.Assign
import SmartHAProxy.Lb.ChashArray
import SmartHAProxy.Lb.ChashRoom
import SmartHAProxy.Lb.FwlcKeys
import SmartHAProxy.Lb.FwrrShares
import SmartHAProxy.Lb.MapSingle
import SmartHAProxy.Peers.Complete
import SmartHAProxy.Peers.Dcache
import SmartHAProxy.Queue.Dequeue
import SmartHAProxy.Queue.Maxconn
import SmartHAProxy.Quic.AckMean
import SmartHAProxy.Quic.Build
import SmartHAProxy.Quic.Crypto
import SmartHAProxy.Quic.Loss
import SmartHAProxy.Quic.PacketNumber
import SmartHAProxy.Quic.ParamsTrip
import SmartHAProxy.Quic.Room
import SmartHAProxy.Sched.Expire
import SmartHAProxy.Server.Admin
import SmartHAProxy.Shctx.Store
import SmartHAProxy.Sink.Readers
import SmartHAProxy.Smartdrop.Follow
import SmartHAProxy.Spoe.Safe
import SmartHAProxy.Stick.Expire
import SmartHAProxy.Uri.Query
import SmartHAProxy.Whitelist.Bounds
import SmartHAProxy.Whitelist.Lock
import SmartHAProxy.Whitelist.Refresh
