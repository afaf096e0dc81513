import DarwinCore.Verification.Algorithm.Hash
import DarwinCore.Verification.Algorithm.HeapSort
import DarwinCore.Verification.Container.BitSet
import DarwinCore.Verification.Container.CircularBuffer
import DarwinCore.Verification.Container.ConcurrentMap
import DarwinCore.Verification.Container.MemoryPool
import DarwinCore.Verification.Container.ObjectPool
import DarwinCore.Verification.Container.SequentialRingQueue
import DarwinCore.Verification.Database.SQLite3DB
import DarwinCore.Verification.Date.Duration
import DarwinCore.Verification.Date.Months
import DarwinCore.Verification.File.Moving
import DarwinCore.Verification.File.SecureDelete
import DarwinCore.Verification.Logger.JsonFormatter
import DarwinCore.Verification.Logger.Lossless
import DarwinCore.Verification.Logger.MessageOrder
import DarwinCore.Verification.Logger.OpenLogFile
import DarwinCore.Verification.Logger.SizeRotation
import DarwinCore.Verification.Network.AcceptLoop
import DarwinCore.Verification.Network.Balance
import DarwinCore.Verification.Network.ClientAnswers
import DarwinCore.Verification.Network.ClientWaits
import DarwinCore.Verification.Network.ConnectAttempts
import DarwinCore.Verification.Network.EchoServer
import DarwinCore.Verification.Network.FailedConnects
import DarwinCore.Verification.Network.Restart
import DarwinCore.Verification.Network.ServerShutdown
import DarwinCore.Verification.Network.Statistics
import DarwinCore.Verification.Network.SuccessiveConnections
import DarwinCore.Verification.Network.Wakeups
import DarwinCore.Verification.Process.Lineage
import DarwinCore.Verification.Protocol.HostOrder
import DarwinCore.Verification.Protocol.LostFrames
import DarwinCore.Verification.Text.Encoding
import DarwinCore.Verification.Text.UUID
import DarwinCore.Verification.Thread.AsyncQueue
import DarwinCore.Verification.Thread.ReadWriteLock
import DarwinCore.Verification.Thread.Throttle
import DarwinCore.Verification.Timer.Timer
import DarwinCore.Library.Recency
import DarwinCore.Model.Container.LRUCache
import DarwinCore.Verification.Container.LRUCache
