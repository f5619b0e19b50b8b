import MerkleStore.Main
import MerkleStore.FileTree
import MerkleStore.Proofs.Consistency
import MerkleStore.Proofs.VersionedMap
import MerkleStore.Proofs.Replay
import MerkleStore.Proofs.Locality
import MerkleStore.Proofs.Reopening
import MerkleStore.Proofs.TornWrite
import MerkleStore.Proofs.Damage
import MerkleStore.Proofs.Safety
import MerkleStore.Proofs.Report
import MerkleStore.Proofs.Divergence
import MerkleStore.Proofs.Completeness
import MerkleStore.Proofs.Mirroring
import MerkleStore.Proofs.Durability
import MerkleStore.Proofs.Stepwise
import MerkleStore.Proofs.Termination
import MerkleStore.Proofs.AppendOnly
import MerkleStore.Proofs.Addressing
import MerkleStore.Proofs.Transparency
import MerkleStore.Proofs.Commitment
import MerkleStore.Proofs.Genuine
import MerkleStore.Proofs.Exactness
import MerkleStore.Proofs.Quarantine
import MerkleStore.Proofs.Withholding
import MerkleStore.Proofs.Independence
import MerkleStore.Proofs.Frozen
import MerkleStore.Proofs.Lineage
import MerkleStore.Proofs.Deleting
import MerkleStore.Proofs.Difference
import MerkleStore.Proofs.Batches
import MerkleStore.Proofs.Verifying
import MerkleStore.Proofs.Snapshot
import MerkleStore.Proofs.Opening
import MerkleStore.Proofs.Failing
import MerkleStore.Proofs.Subtrees
import MerkleStore.Proofs.Ranges
import MerkleStore.Proofs.Bounds
import MerkleStore.Proofs.Conversation
import MerkleStore.Proofs.RootAnswers
import MerkleStore.Proofs.Respelling
import MerkleStore.Proofs.Sharing
import MerkleStore.Proofs.SettingsCodec
