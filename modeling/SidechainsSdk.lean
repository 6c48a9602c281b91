import SidechainsSdk.Core.Grouping
import SidechainsSdk.Account.Types
import SidechainsSdk.Account.FeePayments
import SidechainsSdk.Account.GasPool
import SidechainsSdk.Account.StateTransition
import SidechainsSdk.Account.GasAccounting
import SidechainsSdk.Account.BlockFees
import SidechainsSdk.Core.Fallible
import SidechainsSdk.Account.Stakes.StateDbArray
import SidechainsSdk.Core.Checkpoints
import SidechainsSdk.Account.Stakes.StakeStorage
import SidechainsSdk.Account.Stakes.ForgerStakeV2
import SidechainsSdk.Account.Stakes.ForgerStakeStorage
import SidechainsSdk.Account.Stakes.ForgingStakes
import SidechainsSdk.Account.Stakes.Migration
import SidechainsSdk.Account.MetadataStorage
import SidechainsSdk.Account.Mempool.TxCache
import SidechainsSdk.Core.Contracts
import SidechainsSdk.Account.Mempool.MempoolMap
import SidechainsSdk.Core.LinkedList
import SidechainsSdk.Account.Mempool.Index
import SidechainsSdk.Account.Mempool.Invariant
import SidechainsSdk.Account.Mempool.Adding
import SidechainsSdk.Core.Codec
import SidechainsSdk.Core.Snapshots
import SidechainsSdk.Core.WriteBatch
import SidechainsSdk.Storage.ChangeSet
import SidechainsSdk.Storage.VersionedLevelDb
import SidechainsSdk.Storage.SnapshotRefinement
import SidechainsSdk.Storage.Storage
import SidechainsSdk.Core.AssocMap
import SidechainsSdk.Utxo.WalletBoxStorage
import SidechainsSdk.Utxo.WalletBoxCache
import SidechainsSdk.Chain.ActiveChain
import SidechainsSdk.Chain.Blocks
import SidechainsSdk.History.HistoryStorage
import SidechainsSdk.Chain.Rebuild
import SidechainsSdk.History.ReferenceData
import SidechainsSdk.History.History
import SidechainsSdk.Core.ParentTree
import SidechainsSdk.History.Tree
import SidechainsSdk.History.ForkChoice
import SidechainsSdk.Node.NodeViewHolder
import SidechainsSdk.Node.Agreement
import SidechainsSdk.Utxo.Ledger
import SidechainsSdk.Utxo.SidechainState
import SidechainsSdk.Utxo.BackwardTransferLimit
import SidechainsSdk.Utxo.FeeRewards
import SidechainsSdk.Forging.ForgeMessageBuilder
import SidechainsSdk.Forging.ReferenceRule
import SidechainsSdk.Utxo.ForgedFeePayments
import SidechainsSdk.Account.NativeContract
import SidechainsSdk.Account.WithdrawalRequests
import SidechainsSdk.Account.CertificateKeyRotation
import SidechainsSdk.Consensus.TimeToEpochUtils
import SidechainsSdk.Consensus.AbsoluteSlots
import SidechainsSdk.Consensus.ConsensusDataProvider
import SidechainsSdk.Consensus.ConsensusValidator
import SidechainsSdk.Consensus.AcceptedBlocks
import SidechainsSdk.Consensus.Ommers
import SidechainsSdk.Account.NativeLinkedList
import SidechainsSdk.Account.Ownership.McAddrOwnership
import SidechainsSdk.Account.Ownership.Lists
import SidechainsSdk.Account.Stakes.OpenForgerList
import SidechainsSdk.Account.Ownership.UserInput
import SidechainsSdk.Account.Stakes.ForgerStakeStorageV2
import SidechainsSdk.Account.ForgerPool
import SidechainsSdk.Forging.MainchainSynchronizer
import SidechainsSdk.History.SyncInfo
import SidechainsSdk.Account.Rlp.Decoder
import SidechainsSdk.Account.Rlp.Framing
import SidechainsSdk.Account.Rlp.EthereumTransaction
import SidechainsSdk.Account.Rlp.TransactionCodec
import SidechainsSdk.Account.Rlp.Malleability
import SidechainsSdk.Core.HashTree
import SidechainsSdk.Utils.MerkleTree
import SidechainsSdk.Storage.SidechainSecretStorage
import SidechainsSdk.Core.SortedSet
import SidechainsSdk.Utxo.Mempool.MempoolMap
import SidechainsSdk.Utxo.Mempool.SidechainMemoryPool
import SidechainsSdk.Core.CountedRecords
import SidechainsSdk.Utxo.Mempool.PoolInvariant
import SidechainsSdk.Utxo.StateStorage
import SidechainsSdk.Utxo.Retention
import SidechainsSdk.Account.Mempool.Survivors
import SidechainsSdk.Account.Mempool.Rebuilding
import SidechainsSdk.Account.Mempool.AccountUpdate
import SidechainsSdk.Account.FeeUtils
import SidechainsSdk.Account.Stakes.StakesPerEpoch
import SidechainsSdk.Account.Stakes.StakeQueryCmds
import SidechainsSdk.Account.Mempool.PriorityIterator
import SidechainsSdk.Account.Mempool.AddOutcome
import SidechainsSdk.Core.RemainderShares
import SidechainsSdk.Account.PoolRewards
import SidechainsSdk.Account.PoolRewardOrder
import SidechainsSdk.Account.ReportedPayments
import SidechainsSdk.Account.SenderNonces
import SidechainsSdk.Account.ForgingLoop
import SidechainsSdk.Account.Mempool.ReorgUpdate
import SidechainsSdk.Account.Mempool.Runs
import SidechainsSdk.Account.Ownership.MultisigThreshold
import SidechainsSdk.Account.Ownership.RedeemScript
import SidechainsSdk.Account.Stakes.OpenForgerListVotes
import SidechainsSdk.Account.Stakes.PagedQueries
import SidechainsSdk.Account.Stakes.StakeOrder
import SidechainsSdk.Account.Stakes.StorageUpgrade
import SidechainsSdk.Consensus.NonceDefinition
import SidechainsSdk.Utxo.CertifierKeys
import SidechainsSdk.Utxo.Mempool.PutList
import SidechainsSdk.Utxo.FailedBlocks
import SidechainsSdk.Certificates.CertificateSubmitter
import SidechainsSdk.Certificates.GenerationFlag
import SidechainsSdk.Certificates.KnownSignatures
import SidechainsSdk.Account.MetadataView
import SidechainsSdk.Consensus.SlotRemainder
import SidechainsSdk.Utils.MerkleRoots
import SidechainsSdk.Account.Mempool.CacheRuns
import SidechainsSdk.Core.Chunks
import SidechainsSdk.Account.ChunkedStorage
import SidechainsSdk.Account.StorageGas
import SidechainsSdk.Blocks.MainchainHeader
import SidechainsSdk.Blocks.BlockHeaders
import SidechainsSdk.Blocks.OmmerForm
import SidechainsSdk.Blocks.ProofOfWork
import SidechainsSdk.Utxo.CoinConservation
import SidechainsSdk.Blocks.Equihash
import SidechainsSdk.Blocks.OmmersContainer
import SidechainsSdk.Core.StoreFamily
import SidechainsSdk.Node.CrashRecovery
import SidechainsSdk.Node.SwitchRecovery
