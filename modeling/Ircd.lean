import Ircd.Match
import Ircd.MatchEsc
import Ircd.Ban
import Ircd.BanCache
import Ircd.Lib.Best
import Ircd.Hostmask
import Ircd.AddressConf
import Ircd.Line
import Ircd.Sjoin
import Ircd.Lib.Stamped
import Ircd.SjoinMerge
import Ircd.SjoinRelay
import Ircd.SjoinSimulation
import Ircd.Lib.Buckets
import Ircd.World
import Ircd.WorldRun
import Ircd.UserModes
import Ircd.ServerTreeRuns
import Ircd.Lib.Replica
import Ircd.KillLinkRuns
import Ircd.Dbuf
import Ircd.SendQueue
import Ircd.Servlink
import Ircd.SlinkCommands
import Ircd.LazyLinks
import Ircd.Csv
import Ircd.ParamGrammar
import Ircd.CommandTrie
import Ircd.HashTables
import Ircd.UserHosts
import Ircd.ListChannels
import Ircd.IpTable
import Ircd.Gline
import Ircd.TopicBurst
import Ircd.ModeSend
import Ircd.NetSplit
import Ircd.BurstOrder
import Ircd.ClassCount
import Ircd.MaskAddr
import Ircd.MembershipRuns
import Ircd.FanOut
import Ircd.FanOutRuns
import Ircd.JoinOrder
import Ircd.JoinRelay
import Ircd.ConfItems
import Ircd.AuthRuns
import Ircd.ConfKlines
import Ircd.TempLinesInStep
import Ircd.ChannelSend
import Ircd.BanLists
import Ircd.JoinStatics
import Ircd.ModeAlign
import Ircd.MaskBuffer
import Ircd.ModeAsserts
import Ircd.ModeLines
import Ircd.ModePrivileges
import Ircd.SjoinViews
import Ircd.V4Grammar
import Ircd.V6Grammar
import Ircd.V6Masks
import Ircd.InetNtop6
import Ircd.NickForms
import Ircd.NickRuns
import Ircd.Lib.Threads
import Ircd.Lib.Ring
import Ircd.Whowas
import Ircd.Lib.Mirror
import Ircd.AcceptLists
import Ircd.Invites
import Ircd.CsvQuotes
import Ircd.CsvFiles
import Ircd.CsvRemove
import Ircd.Events
import Ircd.DnsName
import Ircd.DnsAnswer
import Ircd.Resolver
import Ircd.ResolverRuns
import Ircd.AbortList
import Ircd.ServerGecos
import Ircd.Base64
import Ircd.SprintfIrc
import Ircd.ListSelect
import Ircd.Lib.TokenBucket
import Ircd.Flood
import Ircd.Lib.StreamCodec
import Ircd.SlinkRelay
import Ircd.Lib.TreeRoute
import Ircd.HuntServer
import Ircd.ExceptsShown
import Ircd.MaskStable
import Ircd.UmodeBuffer
import Ircd.BlockHeap
import Ircd.Lib.Quota
import Ircd.Who
import Ircd.WhoServers
import Ircd.LazyRequests
import Ircd.Lib.Separate
import Ircd.Messages
import Ircd.HandlerArgs
import Ircd.BanArgs
import Ircd.Challenge
import Ircd.CleanString
import Ircd.Uid
import Ircd.FileLines
import Ircd.AddressChains
