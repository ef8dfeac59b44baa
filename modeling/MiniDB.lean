import MiniDB.Engine.Dump
import MiniDB.Engine.Literals
import MiniDB.Engine.Reinitialisation
import MiniDB.Engine.Repl
import MiniDB.Engine.Shutdown
import MiniDB.Engine.Statistics
import MiniDB.Index.Growth
import MiniDB.Index.Height
import MiniDB.Parser.Delimiters
import MiniDB.Parser.Errors
import MiniDB.Parser.Printing
import MiniDB.Parser.Rendering
import MiniDB.Parser.Tokens
import MiniDB.Parser.Totality
import MiniDB.Recovery.Abort
import MiniDB.Recovery.Durability
import MiniDB.Recovery.Frames
import MiniDB.Recovery.Idempotence
import MiniDB.Storage.Aliases
import MiniDB.Storage.Allocation
import MiniDB.Storage.Crash
import MiniDB.Storage.Eviction
import MiniDB.Storage.FailedFetch
import MiniDB.Storage.Packing
import MiniDB.Storage.PageCount
import MiniDB.Storage.PinBalance
import MiniDB.Storage.PoolRuns
import MiniDB.Storage.PoolSize
import MiniDB.Transaction.Progress
import MiniDB.Transaction.Serializability
