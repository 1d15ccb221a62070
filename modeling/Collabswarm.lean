import Collabswarm.BeeKEM.Agreement
import Collabswarm.BeeKEM.Revocation
import Collabswarm.Keychain.Lookup
import Collabswarm.Keychain.Bootstrap
import Collabswarm.Keychain.RotationOrder
import Collabswarm.Acl.AutomergeACL
import Collabswarm.Acl.Convergence
import Collabswarm.Document.Sync
import Collabswarm.Document.SyncOrder
import Collabswarm.Document.CollabswarmDocument
import Collabswarm.Document.Founder
import Collabswarm.Document.Following
import Collabswarm.BeeKEM.Processing
import Collabswarm.Document.Replay
import Collabswarm.Acl.ACLChain
import Collabswarm.Acl.ChainOfTrust
import Collabswarm.Document.WriterKeys
import Collabswarm.Document.FetchFailures
import Collabswarm.Document.LocalChanges
import Collabswarm.Document.Compaction
import Collabswarm.Support.JsString
import Collabswarm.Support.Json
import Collabswarm.Support.FieldOrder
import Collabswarm.Wire.MerkleDagSerialization
import Collabswarm.Wire.SyncMessageSerializer
import Collabswarm.Wire.SignatureSurvival
import Collabswarm.Wire.SignedRoles
import Collabswarm.Document.QuorumLoad
import Collabswarm.Document.ReaderRevocation
import Collabswarm.Document.LoadQuorum
import Collabswarm.Ucan.Capabilities
import Collabswarm.Ucan.Chain
import Collabswarm.Ucan.UCANACL
import Collabswarm.Index.BloomFilter
import Collabswarm.Index.BloomGossip
import Collabswarm.Index.Value
import Collabswarm.Index.IndexManager
import Collabswarm.Document.PendingWelcomes
import Collabswarm.BeeKEM.RawUpdate
import Collabswarm.Document.DroppedPathUpdates
import Collabswarm.BeeKEM.Network
import Collabswarm.BeeKEM.AddMember
import Collabswarm.BeeKEM.KeyHolders
import Collabswarm.Index.IndexStorage
import Collabswarm.Document.InvitationEpoch
import Collabswarm.Merkle.ChangeTree
import Collabswarm.Merkle.Traversal
import Collabswarm.Merkle.Walkers
import Collabswarm.Merkle.CidWalkers
import Collabswarm.Merkle.MergeExact
import Collabswarm.Merkle.Pruning
import Collabswarm.Merkle.BlockstoreGc
import Collabswarm.Load.Loader
import Collabswarm.Load.QuorumBound
import Collabswarm.Load.Landing
import Collabswarm.Load.ServedFrontier
import Collabswarm.Load.ForgedPayloads
import Collabswarm.Load.FailedLoads
import Collabswarm.Load.CompleteLoads
import Collabswarm.Load.ServedResponses
import Collabswarm.Document.QuorumDecision
import Collabswarm.Ucan.Completeness
import Collabswarm.Ucan.TokenText
import Collabswarm.Document.AutomaticCompaction
import Collabswarm.Document.SnapshotOrder
import Collabswarm.Document.WelcomeAnchor
import Collabswarm.Load.ServedCoverage
import Collabswarm.Support.InsertionSet
import Collabswarm.Document.Transactions
import Collabswarm.Load.CountedChanges
import Collabswarm.Document.AttestedLoad
import Collabswarm.Wire.ReceivedFields
import Collabswarm.Wire.AutomergeJSONSerializer
import Collabswarm.Wire.SyncMessageRoundTrip
import Collabswarm.Support.Bitwise32
import Collabswarm.Support.Looping
import Collabswarm.BeeKEM.TreeMath32
import Collabswarm.BeeKEM.TreeTermination
import Collabswarm.Index.BlindIndexProvider
import Collabswarm.Keychain.Epoch
import Collabswarm.Support.Comparison
import Collabswarm.Index.Sorting
import Collabswarm.Wire.PathPrefixedHeader
import Collabswarm.Acl.Replay
import Collabswarm.BeeKEM.Compaction
import Collabswarm.Wire.ChangeNodeRoundTrip
import Collabswarm.Wire.WelcomeSealedPayload
import Collabswarm.Index.Snapshot
import Collabswarm.Index.IncrementalIndex
import Collabswarm.Index.ValueNodes
import Collabswarm.Index.PrefixRange
import Collabswarm.Acl.CanonicalPayload
import Collabswarm.Load.TipsHash
import Collabswarm.Wire.FirstDeserializable
import Collabswarm.Document.FirstTrue
import Collabswarm.Document.RecentTips
import Collabswarm.Index.FillRatio
import Collabswarm.BeeKEM.Copath
import Collabswarm.Node.Pinning
import Collabswarm.Swarm.OpenDocuments
import Collabswarm.Crypto.EncryptedBlocks
import Collabswarm.Index.SchemaUpgrades
import Collabswarm.Index.LiveQueries
import Collabswarm.Support.Greedy
import Collabswarm.Keychain.KeyUpdates
import Collabswarm.Keychain.KeyUpdateChain
import Collabswarm.Document.ShuffledPeers
import Collabswarm.Relay.RelayServer
import Collabswarm.Keychain.RecentKeys
import Collabswarm.Support.ParsedJson
import Collabswarm.Wire.AcceptedMessages
import Collabswarm.Wire.ServedSignatures
import Collabswarm.Load.TipAdvertisements
import Collabswarm.Document.KeyDisclosure
import Collabswarm.Crypto.Ecies
import Collabswarm.Document.WelcomeDelivery
