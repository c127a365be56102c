import VersionedTrees.Digest.Table

/-!
# Donor index

An index finds donor nodes by digest. It holds the digests of every donor, a table from subtree
digests to the first donor subtree that has it, and one from content digests to the first donor
node. Donors count in order of preference and the nodes of a donor in pre-order. Only nodes that
store their content themselves are found, and only subtrees of such nodes, so that a reference to
what was found resolves in one step.

A donor may refer to other donors, whose digests are computed first. A donor that would need its own
digests for that has none, and then there is no index.
-/

namespace VersionedTrees

/-- The order of tree identifiers is that of their numbers. -/
instance : Ord TreeId where
  compare left right := compare left.value right.value

instance : Std.TransOrd TreeId :=
  inferInstanceAs (Std.TransCmp (compareOn TreeId.value))

instance : Std.LawfulEqOrd TreeId where
  eq_of_compare {left right} same := by
    have equal : left.value = right.value := Std.LawfulEqOrd.compare_eq_iff_eq.mp same
    cases left
    cases right
    exact congrArg TreeId.mk equal

/-- The digests of donors that have been computed. -/
abbrev DonorDigests := Std.TreeMap TreeId DigestTable

/-- Look-up tables from digests to donor nodes. -/
structure DonorIndex where
  digests : DonorDigests
  subtrees : Std.TreeMap Digest Reference
  contents : Std.TreeMap Digest Reference

namespace DonorIndex

variable {C : Type}

/-- The subtree digest of the target of a reference into a donor that has its digests. -/
def computedDigest (reference : Reference) : Edit DonorDigests Digest := do
  let digests ← Edit.current
  let table ← Read.orFail (.unresolved reference) digests[reference.tree]?
  table.target reference

/-- Computes the digests of a donor after those of the donors that it refers to. `waiting` names the
donors whose digests wait for this one. -/
def computeDigests [Content C] (donors : Donors C) :
    Nat → List TreeId → TreeId → Edit DonorDigests Unit
  | 0, _, id => Edit.fail (.shape (.cyclicDonor id))
  | levels + 1, waiting, id => do
    if (← Edit.current).contains id then
      return ()
    else if id ∈ waiting then
      Edit.fail (.shape (.cyclicDonor id))
    else
      let donor ← donors.find id
      let table ← DigestTable.ofTree donor donors fun reference => do
        computeDigests donors levels (id :: waiting) reference.tree
        computedDigest reference
      Edit.modify (·.insert id table)

/-- The identifiers of the donors that count, in order of preference. -/
def identifiers (donors : Donors C) : List TreeId :=
  (donors.trees.map (·.id)).eraseDups

/-- The first subtree with each subtree digest, among nodes listed in order of preference. -/
def firstSubtrees (entries : List (Reference × NodeDigest)) : Std.TreeMap Digest Reference :=
  (entries.filter (·.2.isExplicit)).foldl
    (fun found entry => found.insertIfNew entry.2.subtree entry.1) ∅

/-- The first node with each content digest, among nodes listed in order of preference. -/
def firstContents (entries : List (Reference × NodeDigest)) : Std.TreeMap Digest Reference :=
  (entries.filter (·.2.isLocal)).foldl
    (fun found entry => found.insertIfNew entry.2.content entry.1) ∅

/-- The nodes of a donor with their digests, in pre-order. -/
def entriesOf (digests : DonorDigests) (id : TreeId) : List (Reference × NodeDigest) :=
  match digests[id]? with
  | none => []
  | some table =>
    table.order.filterMap fun key => table.nodes[key]?.map fun digest => (⟨id, key⟩, digest)

/-- The index of donors, with the donors' digests computed in a given order. -/
def buildInOrder [Content C] (donors : Donors C) (order : List TreeId) : Read DonorIndex := do
  let visit := order.forM (computeDigests donors (donors.trees.length + 1) [])
  let (_, digests) ← visit.toRead ∅
  let entries := (identifiers donors).flatMap (entriesOf digests)
  let index : DonorIndex := ⟨digests, firstSubtrees entries, firstContents entries⟩
  Read.report
    (.indexedDonors donors.trees.length index.subtrees.size index.contents.size)
  return index

/-- The index of donors. -/
def build [Content C] (donors : Donors C) : Read DonorIndex :=
  buildInOrder donors (identifiers donors)

/-- The first donor subtree with a subtree digest. -/
def subtree? (index : DonorIndex) (digest : Digest) : Option Reference :=
  index.subtrees[digest]?

/-- The first donor node with a content digest. -/
def content? (index : DonorIndex) (digest : Digest) : Option Reference :=
  index.contents[digest]?

/-- The subtree digest of the target of a reference. -/
def referenceDigest (index : DonorIndex) (reference : Reference) : Read Digest := do
  let table ← Read.orFail (.treeUnavailable reference.tree) index.digests[reference.tree]?
  table.target reference

/-- The digests of a tree that refers to the donors. -/
def digestsOf [Content C] (index : DonorIndex) (tree : Tree C) (donors : Donors C) :
    Read DigestTable :=
  DigestTable.ofTree tree donors index.referenceDigest

end DonorIndex

end VersionedTrees
