import PaleoServer.RequestParser
import PaleoServer.ParserStep
import PaleoServer.RequestGrammar
import PaleoServer.RequestAcceptance
import PaleoServer.Lib.Peg
import PaleoServer.UriParser
import PaleoServer.UrlDecode
import PaleoServer.Reply
import PaleoServer.Lib.Atomic
import PaleoServer.Lib.Trace
import PaleoServer.RequestHandler
import PaleoServer.Lib.MessageReader
import PaleoServer.QueryString
import PaleoServer.ReplyFraming
import PaleoServer.MapHistory
import PaleoServer.Connection
import PaleoServer.ConnectionProtocol
import PaleoServer.ConnectionStream
import PaleoServer.IoServicePool
import PaleoServer.Server
import PaleoServer.ServerAccept
import PaleoServer.ServerIsolation
import PaleoServer.EncodedDelimiters
import PaleoServer.UriText
import PaleoServer.GetMapRoundTrip
import PaleoServer.ParserProgress
import PaleoServer.UrlEncoding
import PaleoServer.QueryLanguage
import PaleoServer.UnreadableSegment
import PaleoServer.ParameterOrder
import PaleoServer.LetterCase
import PaleoServer.ImageType
import PaleoServer.ImageSize
import PaleoServer.RequestedLayers
import PaleoServer.BoundingBox
import PaleoServer.VersionNumbers
import PaleoServer.MandatoryParts
import PaleoServer.ParserSafety
import PaleoServer.Lib.Script
import PaleoServer.Main
import PaleoServer.StartUp
import PaleoServer.Lib.Serial
import PaleoServer.ServerThreads
import PaleoServer.SerialServer
import PaleoServer.ServerAnswers
import PaleoServer.ServerProgress
import PaleoServer.ServerRun
import PaleoServer.SharedMap
import PaleoServer.CanonicalQuery
import PaleoServer.ConnectionIndependence
import PaleoServer.GetMapService
import PaleoServer.Lib.Fairness
import PaleoServer.PoolSize
import PaleoServer.ReplyDiagnosis
import PaleoServer.RequestMemory
import PaleoServer.RequestWriter
import PaleoServer.ServerLiveness
import PaleoServer.Lib.UseCount
import PaleoServer.ObjectLifetime
import PaleoServer.MapAccess
import PaleoServer.ServerArrivals
