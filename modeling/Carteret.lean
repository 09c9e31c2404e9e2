import Carteret.Lib.Runs
import Carteret.Lib.LinearProbing
import Carteret.Lib.OrderedMap
import Carteret.Lib.WordSet
import Carteret.Lib.IntrusiveList
import Carteret.Lib.BigEndian
import Carteret.Lib.Scan
import Carteret.Lib.History
import Carteret.Wire
import Carteret.MoldPacketizer
import Carteret.MoldReceiver
import Carteret.MoldSafety
import Carteret.MoldSession
import Carteret.MoldDelivery
import Carteret.MoldRoundTrip
import Carteret.OrderIndex
import Carteret.ProbeCounts
import Carteret.FreeList
import Carteret.ChainedIndex
import Carteret.IndexComparison
import Carteret.Book
import Carteret.BookEffects
import Carteret.ReferenceBook
import Carteret.ReferenceRefines
import Carteret.BoundedBook
import Carteret.LevelBitmap
import Carteret.FastSide
import Carteret.FastBook
import Carteret.FastShape
import Carteret.FastOperations
import Carteret.FastRefines
import Carteret.FastInvariants
import Carteret.FastCapacity
import Carteret.Recenter
import Carteret.WindowFollows
import Carteret.OrderLives
import Carteret.Exporter
import Carteret.AgeTracker
import Carteret.SharedCounters
import Carteret.ZeroShares
import Carteret.CrossedGate
import Carteret.Differential
import Carteret.DifferentialComplete
import Carteret.DifferentialTouched
import Carteret.DifferentialMissed
import Carteret.Messages
import Carteret.MessageCodec
import Carteret.AgeLabels
import Carteret.Parser
import Carteret.ParserFrames
import Carteret.ParserRoundTrip
import Carteret.ParserSafety
import Carteret.Census
import Carteret.SpscRing
import Carteret.SpscReplay
import Carteret.Sampling
import Carteret.QueueSim
import Carteret.QueueOrders
import Carteret.QueueSteps
import Carteret.QueueAccounting
import Carteret.QueueTallies
import Carteret.QueueBook
import Carteret.Lib.Doubles
import Carteret.QueueDenominator
import Carteret.QueueLevels
import Carteret.QueueAhead
import Carteret.QueueOrderly
import Carteret.QueuePosition
import Carteret.QueueOrdering
import Carteret.QueueArms
import Carteret.QueueLife
import Carteret.Features
import Carteret.FeatureWindows
import Carteret.FeatureRows
import Carteret.QueueCalls
import Carteret.Strategy
import Carteret.StrategySteps
import Carteret.StrategySignal
import Carteret.StrategyTrace
import Carteret.QueueDriven
import Carteret.QueueRule4
import Carteret.StrategyAccounts
import Carteret.StrategyArms
import Carteret.Holm
import Carteret.Bootstrap
import Carteret.Universe
import Carteret.QueueTimes
import Carteret.QueueCoins
import Carteret.FeatureLag
import Carteret.FeatureHalts
import Carteret.Lib.Sha2
import Carteret.Sha256
import Carteret.Lib.SelfDelimiting
import Carteret.Determinism
import Carteret.DeterminismBook
import Carteret.DeterminismRuns
import Carteret.Session
import Carteret.MoldBook
import Carteret.Replay
import Carteret.Synthetic
import Carteret.SyntheticReplay
import Carteret.Lib.Sattolo
import Carteret.Chase
import Carteret.FeatureFeeds
import Carteret.Recoding
import Carteret.FeatureIsolation
import Carteret.FeatureMirror
import Carteret.Lib.Tally
import Carteret.Attribution
import Carteret.StrategySymbols
import Carteret.Lib.Grid
import Carteret.MicroSamples
import Carteret.FeatureAudit
import Carteret.Lib.Lagged
import Carteret.MersenneTwister
import Carteret.Lib.Mixing
import Carteret.DrawChecksum
import Carteret.ParserReads
import Carteret.FuzzTarget
