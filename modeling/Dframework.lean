import Dframework.Library.Search
import Dframework.Library.Pieces
import Dframework.Library.BlockStream
import Dframework.Library.Rfc1321
import Dframework.Library.Rfc3986
import Dframework.Library.FieldOrder
import Dframework.Library.CLib
import Dframework.Library.Loop
import Dframework.Library.Pattern
import Dframework.Library.Cells
import Dframework.Library.Store
import Dframework.Library.Lines
import Dframework.Base.Retval
import Dframework.Base.Sp
import Dframework.Base.SpCascade
import Dframework.Base.SpRuns
import Dframework.Base.Condition
import Dframework.Lang.String
import Dframework.Lang.Number
import Dframework.Lang.StringBuffer
import Dframework.Lang.StringCompare
import Dframework.Lang.StringRuns
import Dframework.Lang.StringReplace
import Dframework.Util.ArraySorted
import Dframework.Util.ArrayBase
import Dframework.Util.ArrayRuns
import Dframework.Util.SortedRuns
import Dframework.Util.Base64
import Dframework.Util.MD5
import Dframework.Util.Regexp
import Dframework.Net.Socket
import Dframework.Net.Uri
import Dframework.Net.UriOrder
import Dframework.Net.UriText
import Dframework.Net.UriPrint
import Dframework.Net.UriFront
import Dframework.Io.LocalFs
import Dframework.Net.Sending
import Dframework.Net.SendRaw
import Dframework.Io.File
import Dframework.Io.FileSave
import Dframework.Io.RecentlyFiles
import Dframework.Io.HttpFs
import Dframework.Httpd.FileResponse
import Dframework.Http.Header
import Dframework.Http.MakeClientBuffer
import Dframework.Http.Round
import Dframework.Http.HeaderLine
import Dframework.Http.Connection
import Dframework.Http.HeadRun
import Dframework.Http.KeepAlive
import Dframework.Http.HttpDigest
import Dframework.Http.DirectiveScan
import Dframework.Http.Directives
import Dframework.Http.Authorization
import Dframework.Http.RequestReal
import Dframework.Http.HttpLocation
import Dframework.Http.RedirectTarget
import Dframework.Http.Chunk
import Dframework.Http.Settle
import Dframework.Http.ChunkedBlocks
import Dframework.Http.BlocksLoop
import Dframework.Http.BlocksParse
import Dframework.Http.BlocksRun
import Dframework.Http.BlocksBounds
import Dframework.Http.ChunkedRead
import Dframework.Http.ReadKept
import Dframework.Http.ReadRun
import Dframework.Http.ChunkSafety
import Dframework.Http.LengthReader
import Dframework.Http.EndNotification
import Dframework.Http.LengthRun
import Dframework.Http.LengthSplit
import Dframework.Http.LengthRead
import Dframework.Util.StringArray
import Dframework.Httpd.RangeBytes
import Dframework.Httpd.RangeScan
import Dframework.Net.Hostname
import Dframework.Httpd.ParseToTime
import Dframework.Util.TimeParse
import Dframework.Util.TimeIso
import Dframework.Library.Percent
import Dframework.Library.Driven
import Dframework.Library.Stations
import Dframework.Library.Paths
import Dframework.Httpd.HttpdUtil
import Dframework.Httpd.HttpRequest
import Dframework.Httpd.RequestTarget
import Dframework.Httpd.SplitRequest
import Dframework.Httpd.HttpdThread
import Dframework.Httpd.ClientRequest
import Dframework.Httpd.SendResponse
import Dframework.Httpd.PollSenders
import Dframework.Httpd.Response
import Dframework.Httpd.Exchange
import Dframework.Monitor.Devices
import Dframework.Monitor.RawData
import Dframework.Monitor.FixedRecords
import Dframework.Library.Window
import Dframework.Monitor.Monitor
import Dframework.Monitor.Rows
import Dframework.Monitor.Depth
import Dframework.Monitor.Seconds
import Dframework.Monitor.SaveRawData
import Dframework.Monitor.LoadRawData
import Dframework.Library.Rose
import Dframework.Library.Linked
import Dframework.Util.ArrayLinked
import Dframework.Util.Queue
import Dframework.Base.Thread
import Dframework.Xml.Document
import Dframework.Xml.Parser
import Dframework.Xml.Search
import Dframework.Xml.Attributes
import Dframework.Xml.Constructs
import Dframework.Xml.DocumentRun
import Dframework.Xml.Markup
import Dframework.Xml.WholeDocument
import Dframework.Xml.CutConstruct
import Dframework.Xml.ConstructNode
import Dframework.Xml.Segments
import Dframework.Http.Propfind
import Dframework.Http.PropfindListing
import Dframework.Http.PropfindBlocks
import Dframework.Ssh2.SSH2Session
import Dframework.Util.RegexpMatch
import Dframework.Net.PathReuse
import Dframework.Net.FileInfo
import Dframework.Httpd.OriginFs
import Dframework.Httpd.ServedPath
import Dframework.Httpd.HttpdConfigure
import Dframework.Net.Poll
import Dframework.Httpd.PollMode
import Dframework.Net.ServerAccept
import Dframework.Net.ServerSockets
