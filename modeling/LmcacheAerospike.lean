import LmcacheAerospike.CallTree
import LmcacheAerospike.SharedDevice
import LmcacheAerospike.Slicing
import LmcacheAerospike.FieldText
import LmcacheAerospike.HexText
import LmcacheAerospike.Records
import LmcacheAerospike.Crc32
import LmcacheAerospike.Errors
import LmcacheAerospike.Sharding
import LmcacheAerospike.Keys
import LmcacheAerospike.CommitLast
import LmcacheAerospike.Config
import LmcacheAerospike.Serde
import LmcacheAerospike.Engine
import LmcacheAerospike.NativeKeys
import LmcacheAerospike.NativeConnector
import LmcacheAerospike.EngineCalls
import LmcacheAerospike.EngineWrites
import LmcacheAerospike.Payload
import LmcacheAerospike.RecordInvariant
import LmcacheAerospike.Reader
import LmcacheAerospike.FaultFree
import LmcacheAerospike.Refusals
import LmcacheAerospike.CompletedPut
import LmcacheAerospike.EngineRuns
import LmcacheAerospike.PutWorld
import LmcacheAerospike.ReadBack
import LmcacheAerospike.BatchedLoad
import LmcacheAerospike.BatchedStore
import LmcacheAerospike.SharedKey
import LmcacheAerospike.RoundTrip
import LmcacheAerospike.InterruptedPut
import LmcacheAerospike.SharedFormat
import LmcacheAerospike.Isolation
import LmcacheAerospike.HitReadable
import LmcacheAerospike.RemoveHistory
import LmcacheAerospike.MetaCommitted
import LmcacheAerospike.LabelledRun
import LmcacheAerospike.PinExpiry
import LmcacheAerospike.PutTasks
import LmcacheAerospike.ClientHolder
import LmcacheAerospike.L2Executors
import LmcacheAerospike.L2Progress
import LmcacheAerospike.L2Buffers
import LmcacheAerospike.L2Tasks
import LmcacheAerospike.L2Close
import LmcacheAerospike.L2Order
import LmcacheAerospike.L2Ledger
import LmcacheAerospike.L2Locks
import LmcacheAerospike.RemoveRace
import LmcacheAerospike.ConfigParsing
import LmcacheAerospike.L2Completions
import LmcacheAerospike.Limits
import LmcacheAerospike.NativeReads
import LmcacheAerospike.InterruptedSet
import LmcacheAerospike.GetExits
import LmcacheAerospike.BatchedPut
import LmcacheAerospike.PutFailures
import LmcacheAerospike.LoadAgreement
import LmcacheAerospike.LoadTimeouts
import LmcacheAerospike.CxxText
import LmcacheAerospike.HostLists
import LmcacheAerospike.RecordCaps
import LmcacheAerospike.NativePlan
import LmcacheAerospike.HolderHistory
import LmcacheAerospike.KeyListing
import LmcacheAerospike.Gather
import LmcacheAerospike.ConnectorGets
import LmcacheAerospike.PutGather
import LmcacheAerospike.ReadSources
import LmcacheAerospike.NativeCalls
import LmcacheAerospike.NativeRuns
import LmcacheAerospike.Fleet
import LmcacheAerospike.FleetReads
import LmcacheAerospike.FleetCuts
import LmcacheAerospike.FleetChecks
import LmcacheAerospike.PlannersAgree
import LmcacheAerospike.CheckedCache
import LmcacheAerospike.CacheRelation
import LmcacheAerospike.CacheReads
import LmcacheAerospike.CacheRefinement
import LmcacheAerospike.LastingFacts
import LmcacheAerospike.QuietCalls
import LmcacheAerospike.FleetStored
import LmcacheAerospike.FleetWrites
import LmcacheAerospike.FleetDurable
import LmcacheAerospike.FleetAnswers
import LmcacheAerospike.FleetServed
import LmcacheAerospike.FleetLoads
import LmcacheAerospike.FleetMonotone
import LmcacheAerospike.L2Shared
import LmcacheAerospike.EntryPoints
import LmcacheAerospike.L2Limits
