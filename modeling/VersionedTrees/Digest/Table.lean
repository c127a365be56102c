import Std.Data.TreeMap
import VersionedTrees.Donors.Basic

/-!
# Digests of trees

Each node of a tree has a digest of its resolved content and one of its resolved subtree. The
subtree digest covers the content digest and then, child by child, the child's key and the child's
subtree digest; the node's own key is not part of it, so equal subtrees under different keys agree.
A tree-reference has the subtree digest of its target, which the caller provides.
-/

namespace VersionedTrees

/-- The digests of one node. -/
structure NodeDigest where
  /-- The digest of the resolved content. -/
  content : Digest
  /-- The digest of the resolved subtree. -/
  subtree : Digest
  /-- The node stores its content itself. -/
  isLocal : Bool
  /-- The node and all nodes below it store their content themselves. -/
  isExplicit : Bool
deriving DecidableEq

/-- The digests of all nodes of a tree, and the keys in pre-order. -/
structure DigestTable where
  order : List Key := []
  nodes : Std.TreeMap Key NodeDigest := ∅

/-- The bytes that a subtree digest is made of. -/
def subtreeBytes (content : Digest) (children : List (Key × Digest)) : List UInt8 :=
  content.bytes ++ children.flatMap fun child => child.1.bytes ++ child.2.bytes

namespace DigestTable

variable {C : Type} {m : Type → Type} [Monad m] [MonadLiftT Read m]

/-- The digests of children that are in a table already. -/
def childDigests (nodes : Std.TreeMap Key NodeDigest) (children : List Key) :
    Read (List (Key × NodeDigest)) :=
  children.mapM fun child => do
    return (child, ← Read.orFail (.nodeNotFound child) nodes[child]?)

/-- The digests of a node, given those of its children. -/
def ofNode [Content C] (tree : Tree C) (donors : Donors C) (references : Reference → m Digest)
    (nodes : Std.TreeMap Key NodeDigest) (key : Key) : m NodeDigest := do
  let payload ← (tree.payload key : Read (Payload C))
  let content := Content.digest (← (donors.resolve payload : Read C))
  match payload with
  | .treeReference reference =>
    return ⟨content, ← references reference, false, false⟩
  | .content _ | .nodeReference _ =>
    let children ← (tree.children key : Read (List Key))
    let digests ← (childDigests nodes children : Read (List (Key × NodeDigest)))
    let subtree := subtreeBytes content (digests.map fun child => (child.1, child.2.subtree))
    let isLocal := !payload.isReference
    return ⟨content, Digest.of subtree, isLocal, isLocal && digests.all (·.2.isExplicit)⟩

/-- Adds the digests of keys in order. -/
def addAll [Content C] (tree : Tree C) (donors : Donors C) (references : Reference → m Digest) :
    List Key → Std.TreeMap Key NodeDigest → m (Std.TreeMap Key NodeDigest)
  | [], nodes => return nodes
  | key :: rest, nodes => do
    let digest ← ofNode tree donors references nodes key
    addAll tree donors references rest (nodes.insert key digest)

/-- The digests of a tree. The keys are taken in reverse pre-order, so that children come before
their parents. -/
def ofTree [Content C] (tree : Tree C) (donors : Donors C) (references : Reference → m Digest) :
    m DigestTable := do
  let order ← (tree.keys : Read (List Key))
  return ⟨order, ← addAll tree donors references order.reverse ∅⟩

/-- The subtree digest of the target of a reference into the tree of a table. -/
def target (table : DigestTable) (reference : Reference) : Read Digest := do
  let digest ← Read.orFail (.unresolved reference) table.nodes[reference.key]?
  return digest.subtree

end DigestTable

end VersionedTrees
