import Sylar.Lib.Method
import Sylar.Lib.Blocks
import Sylar.Net.ByteArray
import Sylar.Net.FlatBuffer
import Sylar.Lib.Words
import Sylar.Net.Serialize
import Sylar.Http.RequestGrammar
import Sylar.Http.Message
import Sylar.Http.RequestParser
import Sylar.Http.Session
import Sylar.Http.RequestReads
import Sylar.Http.RequestCuts
import Sylar.Lib.RagelRuns
import Sylar.Http.Pipelined
import Sylar.Http.ResponseGrammar
import Sylar.Http.Connection
import Sylar.Http.SizeLine
import Sylar.Http.Chunked
import Sylar.Http.ConnectionPool
import Sylar.Http.PoolAccounting
import Sylar.Http.PoolLimits
import Sylar.Http.DoRequest
import Sylar.Http.PoolReuse
import Sylar.Io.EventTable
import Sylar.Lib.Transition
import Sylar.Io.Calls
import Sylar.Io.Consistency
import Sylar.Io.TableRuns
import Sylar.Io.TableGrowth
import Sylar.Io.StaleDispatch
import Sylar.Io.TimedIo
import Sylar.Io.Scheduler
import Sylar.Io.FiberMachine
import Sylar.Io.FiberRuns
import Sylar.Lib.OrderedSet
import Sylar.Io.Timers
import Sylar.Io.TimerRuns
import Sylar.Io.TimerDeadlines
import Sylar.Config.SetValue
import Sylar.Config.Node
import Sylar.Lib.Decimals
import Sylar.Config.Casts
import Sylar.Net.ServerConf
import Sylar.Log.Formatter
import Sylar.Log.LogDefine
import Sylar.Log.Reconfigure
import Sylar.Lib.History
import Sylar.Http.Servlet
import Sylar.Io.FiberIds
import Sylar.Io.FdManager
import Sylar.Io.HookFlags
import Sylar.Net.FixSize
import Sylar.Http.ChunkLengths
import Sylar.Io.TimerExpiry
import Sylar.Lib.RagelWords
import Sylar.Lib.RagelContexts
import Sylar.Http.Uri
import Sylar.Http.UriRuns
import Sylar.Http.UriAuthority
import Sylar.Http.UriPaths
import Sylar.Http.UriComponents
import Sylar.Io.TimerAgreement
import Sylar.Io.TimerHandles
import Sylar.Lib.Narrowing
import Sylar.Io.IdleTimeout
import Sylar.Io.HookTimes
import Sylar.Io.TableIndex
import Sylar.Net.Content
import Sylar.Net.Strings
import Sylar.Net.ReadBuffers
import Sylar.Net.WriteBuffers
import Sylar.Net.FileDump
import Sylar.Net.FailedReads
import Sylar.Config.FromString
import Sylar.Config.LoadFromYaml
import Sylar.Log.PatternScan
import Sylar.Log.Pattern
import Sylar.Common.UrlCoding
import Sylar.Lib.Cutting
import Sylar.Http.Params
import Sylar.Http.ParamAccess
import Sylar.Http.MethodTokens
import Sylar.Http.Dump
import Sylar.Net.Address
import Sylar.Common.Trim
import Sylar.Lib.Varints
import Sylar.Net.Varints
import Sylar.Net.Ipv6Prefix
import Sylar.Net.Ipv6Text
import Sylar.Net.Lookup
import Sylar.Env.Args
import Sylar.Net.TcpServer
import Sylar.Streams.ZlibStream
import Sylar.Streams.ZlibBuffers
import Sylar.Common.Rm
import Sylar.Lib.RagelClasses
import Sylar.Http.Fields
import Sylar.Http.RequestStates
import Sylar.Http.RequestWire
import Sylar.Http.ResponseStates
import Sylar.Http.ResponseWire
import Sylar.Http.Server
import Sylar.Io.Shutdown
import Sylar.Http.UriText
import Sylar.Http.ClientRequest
import Sylar.Config.Containers
