import CasperNode.Lib.WrappingCast
import CasperNode.Lib.ExceptBind
import CasperNode.Types.Bytesrepr
import CasperNode.Types.CLType
import CasperNode.ExecutionEngine.Transform
import CasperNode.Types.AppendableBlock
import CasperNode.Types.BlockLimits
import CasperNode.Types.DeployBuffer
import CasperNode.BlockValidator.State
import CasperNode.Lib.AssocList
import CasperNode.BlockValidator.Validator
import CasperNode.BlockSynchronizer.SignatureAcquisition
import CasperNode.BlockSynchronizer.DeployAcquisition
import CasperNode.BlockSynchronizer.BlockAcquisition
import CasperNode.Zug.Round
import CasperNode.Zug.State
import CasperNode.Zug.Protocol
import CasperNode.Zug.Frame
import CasperNode.Zug.EvidenceOnly
import CasperNode.Lib.ContentStore
import CasperNode.TrieStore.Operations
import CasperNode.TrieStore.Trie
import CasperNode.Lib.ListPrefix
import CasperNode.TrieStore.Holds
import CasperNode.TrieStore.Scan
import CasperNode.TrieStore.Rehash
import CasperNode.TrieStore.Write
import CasperNode.TrieStore.Delete
import CasperNode.Lib.Codec
import CasperNode.TrieStore.IdealHash
import CasperNode.TrieStore.Refinement
import CasperNode.TrieStore.Canonical
import CasperNode.TrieStore.MerkleProof
import CasperNode.TrieStore.Keys
import CasperNode.GlobalState.Commit
import CasperNode.GlobalState.Scratch
import CasperNode.GlobalState.Block
import CasperNode.Lib.TreeFold
import CasperNode.Lib.Chunks
import CasperNode.Hashing.MerkleProof
import CasperNode.Hashing.ChunkWithProof
import CasperNode.Auction.Types
import CasperNode.Auction.State
import CasperNode.Auction.EntryPoints
import CasperNode.Auction.Distribute
import CasperNode.Auction.System
import CasperNode.Storage.DisjointSequences
import CasperNode.Types.Account
import CasperNode.Hashing.RootHash
import CasperNode.Lib.WeightedChoice
import CasperNode.Consensus.LeaderSequence
import CasperNode.Highway.SkipIndex
import CasperNode.Highway.FinalityQuorum
import CasperNode.Lib.StackSearch
import CasperNode.Highway.Panorama
import CasperNode.Lib.BinaryGcd
import CasperNode.Types.Uint
import CasperNode.Lib.Pruning
import CasperNode.Highway.Horizon
import CasperNode.Lib.CyclicSchedule
import CasperNode.Lib.KeyedFifo
import CasperNode.RoundRobin.Scheduler
import CasperNode.RoundRobin.Tasks
import CasperNode.RoundRobin.Fairness
import CasperNode.BlockValidator.Purge
import CasperNode.BlockValidator.Responders
import CasperNode.Auction.Supply
import CasperNode.BlockSynchronizer.Progress
import CasperNode.Lib.Radix
import CasperNode.Lib.Base16
import CasperNode.Types.ChecksummedHex
import CasperNode.Types.Key
