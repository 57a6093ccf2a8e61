import Djondb.LibBytes
import Djondb.BsonObj
import Djondb.BsonStream
import Djondb.DjString
import Djondb.LibSearchPage
import Djondb.LibSearchTree
import Djondb.IndexPage
import Djondb.BufferManager
import Djondb.BPlusIndexP
import Djondb.IndexTree
import Djondb.IndexPersist
import Djondb.IndexInsert
import Djondb.IndexSplit
import Djondb.IndexSearch
import Djondb.IndexAdd
import Djondb.IndexRuns
import Djondb.IndexImage
import Djondb.IndexReopen
import Djondb.IndexRecovery
import Djondb.DBFileStream
import Djondb.FilePositions
import Djondb.LibRecords
import Djondb.IndexUpdate
import Djondb.DBController
import Djondb.StoredRecords
import Djondb.StoreInvariant
import Djondb.Command
import Djondb.BSONBufferedObj
import Djondb.BufferedView
import Djondb.FilterExpression
import Djondb.FilterViews
import Djondb.LibMemory
import Djondb.TransactionOperation
import Djondb.TxBuffer
import Djondb.TxBufferManager
import Djondb.StdTransaction
import Djondb.LogContents
import Djondb.LogAppends
import Djondb.LogCommit
import Djondb.LogRegions
import Djondb.LibLinkedMap
import Djondb.TransactionFind
import Djondb.Overlay
import Djondb.OverlayCommit
import Djondb.FindCommit
import Djondb.Monitor
import Djondb.FindDuringFlush
import Djondb.LogDelivery
import Djondb.ControlFiles
import Djondb.TransactionManager
import Djondb.Histories
import Djondb.Isolation
import Djondb.ControlRecords
import Djondb.LogRecovery
import Djondb.RecoveredWrites
import Djondb.MemoryStream
import Djondb.LogCodec
import Djondb.IndexAnswers
import Djondb.IndexEnumeration
import Djondb.IndexShape
import Djondb.IndexFactory
import Djondb.SharedIndex
import Djondb.NamespaceFind
import Djondb.DroppedNamespace
import Djondb.StreamManager
import Djondb.Catalogue
import Djondb.Listing
import Djondb.LibLexer
import Djondb.BsonGrammarLexer
import Djondb.BsonGrammarParser
import Djondb.BsonText
import Djondb.TextTokens
import Djondb.TextRoundTrip
import Djondb.NamespaceNames
import Djondb.VersionMigration
import Djondb.StreamRoundTrip
import Djondb.NetworkOutputStream
import Djondb.LargeRecords
import Djondb.MMapInputOutputStream
import Djondb.MappedRoundTrip
import Djondb.FlatStream
import Djondb.PageBounds
import Djondb.FilterExpressionLexer
import Djondb.FilterExpressionParser
import Djondb.FilterTokens
import Djondb.StringTokens
import Djondb.FilterLiterals
import Djondb.NetworkInputStream
import Djondb.BrokenConnection
import Djondb.CommandVersions
import Djondb.CommandSequences
import Djondb.CommitRecovery
import Djondb.IndexedFind
import Djondb.DocumentEquality
import Djondb.LibTokens
import Djondb.BsonUtil
import Djondb.BsonSelect
import Djondb.SelectPaths
import Djondb.SelectReading
import Djondb.BufferedSelect
import Djondb.FindSelect
import Djondb.OverlayList
import Djondb.FindLimit
import Djondb.RecordRewrite
import Djondb.FlushOnce
import Djondb.LogReferences
import Djondb.LogFiles
import Djondb.IndexProgress
import Djondb.LogReplay
import Djondb.FilterOrder
import Djondb.FilterTypes
import Djondb.FilterExists
import Djondb.FilterCopy
import Djondb.CachedText
import Djondb.StaleText
import Djondb.ScanBounds
import Djondb.HandParser
import Djondb.HandParserRounds
import Djondb.HandParserBounds
import Djondb.WrittenDocuments
import Djondb.HandParserRuns
import Djondb.IntegerLiterals
import Djondb.GrammarDocuments
import Djondb.ParsersAgree
import Djondb.BufferBookkeeping
import Djondb.BufferTable
import Djondb.BufferSelection
import Djondb.ScanProgress
import Djondb.StringCompare
import Djondb.PriorityCache
import Djondb.LinkedMapState
import Djondb.LibRing
import Djondb.CircularQueue
import Djondb.FilterGrammar
import Djondb.FilterWriting
import Djondb.LibRequests
import Djondb.NetworkService
import Djondb.Sessions
import Djondb.DjondbConnection
import Djondb.ClientTransactions
import Djondb.LibDescent
import Djondb.DqlLexer
import Djondb.DqlParser
import Djondb.DqlFilters
import Djondb.DqlDocuments
import Djondb.LibRelexing
import Djondb.DqlTexts
import Djondb.DqlFilterTexts
import Djondb.DqlDocumentTexts
import Djondb.DqlStatements
import Djondb.ExecuteQuery
