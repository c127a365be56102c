import VersionedTrees.Delta.Wire
import VersionedTrees.Merge
import VersionedTrees.Session
import VersionedTrees.Store.Lemmas
import VersionedTrees.Synchronize
import VersionedTrees.Tree.Listing
import VersionedTrees.Workspace
import VersionedTrees.Proofs.Buffer.Agreement
import VersionedTrees.Proofs.Buffer.CoherentRuns
import VersionedTrees.Proofs.Buffer.Refinement
import VersionedTrees.Proofs.Cbor.Records
import VersionedTrees.Proofs.Delta.Wire
import VersionedTrees.Proofs.Digest.Bytes
import VersionedTrees.Proofs.Digest.Matching
import VersionedTrees.Proofs.Donors.Index
import VersionedTrees.Proofs.Donors.Normalized
import VersionedTrees.Proofs.Delta.RoundTrip
import VersionedTrees.Proofs.Store.Runs
import VersionedTrees.Proofs.Buffer.Failures
import VersionedTrees.Proofs.Donors.Preservation
import VersionedTrees.Proofs.Delta.Sent
import VersionedTrees.Proofs.Delta.Received
import VersionedTrees.Proofs.View.Parents
import VersionedTrees.Proofs.View.Handles
import VersionedTrees.Proofs.Buffer.Staleness
import VersionedTrees.Proofs.Buffer.Grounded
import VersionedTrees.Proofs.Buffer.Deletion
import VersionedTrees.Proofs.Buffer.Rejected
import VersionedTrees.Proofs.Donors.Order
import VersionedTrees.Proofs.Buffer.PlainRuns
import VersionedTrees.Proofs.Buffer.Restored
import VersionedTrees.Proofs.Synchronize.Expansion
import VersionedTrees.Proofs.Store.Places
import VersionedTrees.Proofs.Donors.Stages
import VersionedTrees.Proofs.Donors.Sameness
import VersionedTrees.Proofs.Donors.Deciding
import VersionedTrees.Proofs.Donors.Retained
import VersionedTrees.Proofs.Donors.Idempotent
import VersionedTrees.Proofs.Key.Pairing
import VersionedTrees.Proofs.View.Renamed
import VersionedTrees.Proofs.View.Failures
import VersionedTrees.Proofs.View.Trapped
import VersionedTrees.Proofs.View.Absence
import VersionedTrees.Proofs.Store.Frames
import VersionedTrees.Proofs.Store.DocumentOrder
import VersionedTrees.Proofs.Buffer.Backed
