import Capio.Library.Run
import Capio.Library.UnorderedMap
import Capio.Library.InverseIndex
import Capio.Library.Numeral
import Capio.Library.Format
import Capio.Library.Holders
import Capio.Library.Ring
import Capio.Library.LockFile
import Capio.Library.SharedMemory
import Capio.Library.Joined
import Capio.Library.Script
import Capio.Library.Dependencies
import Capio.Library.Wildcard
import Capio.Library.Throughout
import Capio.Library.Exchange
import Capio.Library.RunLength
import Capio.Library.Walk
import Capio.Library.Pieces
import Capio.Library.NamedObjects
import Capio.Common.StdPath
import Capio.Common.NormalPaths
import Capio.Common.PathNormalization
import Capio.Common.CapioPath
import Capio.Common.Queue
import Capio.Common.Transfers
import Capio.Common.TransferRuns
import Capio.Common.QueueHandles
import Capio.Common.ChannelRuns
import Capio.Server.System
import Capio.Server.PathAgreement
import Capio.Server.RuleLookup
import Capio.Server.GlobMatching
import Capio.Server.EnclosingDirectory
import Capio.Server.HashOrder
import Capio.Server.ProducerRoles
import Capio.Server.EngineSetters
import Capio.Server.JsonParser
import Capio.Server.ConfigScript
import Capio.Server.ConfigRuns
import Capio.Server.ParseSurvival
import Capio.Server.ConfigEntries
import Capio.Server.DocumentOrder
import Capio.Server.OneEntry
import Capio.Server.CommitRecursion
import Capio.Server.CommitClosure
import Capio.Server.InheritedCommit
import Capio.Server.Decisions
import Capio.Server.WaitingTables
import Capio.Server.CreationWaiters
import Capio.Server.DataWaiters
import Capio.Server.DeferredUnlock
import Capio.Server.ReadAnswers
import Capio.Server.ClosingReaders
import Capio.Server.ClientIdentity
import Capio.Server.ClientLookups
import Capio.Server.TerminationCommit
import Capio.Server.ReleaseSoundness
import Capio.Server.Network
import Capio.Server.OpenRelease
import Capio.Server.MetadataProtocol
import Capio.Server.CloseCount
import Capio.Server.CommitPermanence
import Capio.Server.RequestReader
import Capio.Server.RequestRoundTrip
import Capio.Posix.DescriptorTables
import Capio.Posix.DescriptorHandlers
import Capio.Posix.DescriptorConsistency
import Capio.Posix.StatHandlers
import Capio.Posix.CallVariants
import Capio.Posix.OffsetHandlers
import Capio.Posix.OffsetTracking
import Capio.Posix.Snapshot
import Capio.Posix.Requests
import Capio.Posix.ReadCache
import Capio.Posix.WriteCache
import Capio.Posix.FailedCalls
import Capio.Posix.DeletedPaths
import Capio.Posix.DuplicatedDescriptors
import Capio.Posix.RenamedPaths
import Capio.Posix.WorkingDirectory
import Capio.Posix.PathSpellings
import Capio.Server.CommittedGrammar
import Capio.Server.Dispatch
import Capio.Server.MetadataTokens
import Capio.Posix.ConsentHandlers
import Capio.Posix.Hook
import Capio.Server.OpenQuestions
import Capio.Node.ThreadProtocol
import Capio.Node.Machine
import Capio.Node.Lanes
import Capio.Node.Questions
import Capio.Library.Fairness
import Capio.Library.Simulation
import Capio.Library.GuardedSet
import Capio.Library.Stopping
import Capio.Server.MonitorScans
import Capio.Node.Liveness
import Capio.Node.SharedQueue
import Capio.Node.CloneHandover
import Capio.Node.Answers
import Capio.Node.CachedReads
import Capio.Server.DocumentRules
import Capio.Server.AbandonedLock
import Capio.Server.RemoteClosers
import Capio.Posix.ForeignCalls
import Capio.Node.ForeignThreads
import Capio.Server.MissingDirectories
