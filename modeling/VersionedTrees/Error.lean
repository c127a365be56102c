import VersionedTrees.Payload

/-!
# Reasons for failure

Every read and every edit that cannot be carried out names its reason. A `TreeError` is the reason,
`TreeError.kind` the family it belongs to, and `TreeError.message` the text for people.
-/

namespace VersionedTrees

/-- Why a delta cannot be replayed as a tree. -/
inductive DeltaFault where
  /-- The delta was made for another tree than the one that backs the buffer. -/
  | notForBacking (base backing : TreeId)
  /-- The delta was made for another tree than the one at hand. -/
  | notForBase (base actual : TreeId)
  /-- Two nodes of the delta would get the same key in a buffer. -/
  | repeatedKey (key : Key)
  /-- Two nodes of an expansion would get the same key. -/
  | producedTwice (key : Key)
  /-- A subtree that is taken from elsewhere has children of its own as well. -/
  | referenceWithChildren (key : Key)
  /-- A reference leaves the backing tree of a buffer. -/
  | leavesBacking (reference : Reference) (backing : TreeId)
  /-- A reference leaves the base of its delta. -/
  | leavesBase (key : Key) (reference : Reference) (base : TreeId)
  /-- A node is given separately and is part of a subtree that is taken as it is. -/
  | insideUnchanged (key ancestor : Key)
deriving DecidableEq

/-- Why an edit would leave a tree out of shape. -/
inductive ShapeFault where
  /-- The sibling that a placement names stands elsewhere. -/
  | notAChild (anchor parent : Key)
  /-- The key that encodes the wanted position is taken. -/
  | positionTaken (key : Key)
  /-- The tree has a root already. -/
  | secondRoot (key root : Key)
  /-- The tree has no root, and yet the key that its root is to get. -/
  | storedWithoutRoot (key : Key)
  /-- The root cannot become a child. -/
  | rootBelow (key parent : Key)
  /-- A node cannot become its own descendant. -/
  | belowItself (key parent : Key)
  /-- A donor's digests would be needed to compute those same digests. -/
  | cyclicDonor (donor : TreeId)
  /-- A buffer keeps a tree-reference under the key of its target only; a node cannot be inserted
  with another one. -/
  | misplacedReference (target : Reference)
  /-- A buffer keeps a tree-reference under the key of its target only; a node cannot be updated to
  another one. -/
  | retargeted (key : Key) (target : Reference)
  /-- The key handed out for a new node is one of the backing tree. -/
  | generatedTaken (key : Key)
deriving DecidableEq

/-- Why a read or an edit cannot be carried out. -/
inductive TreeError where
  /-- A key that is needed is not in the tree. -/
  | nodeNotFound (key : Key)
  /-- A handle is read after one of its trees has changed. -/
  | staleHandle (recorded current : Nat)
  /-- The target of a reference is missing or holds no content. -/
  | unresolved (reference : Reference)
  /-- A reference names a tree that is not at hand. -/
  | treeUnavailable (tree : TreeId)
  /-- A delta cannot be replayed. -/
  | delta (fault : DeltaFault)
  /-- An edit would leave the tree out of shape. -/
  | shape (fault : ShapeFault)
  /-- A position key cannot be made. -/
  | path (fault : PathFault)
  /-- An opaque sibling has no position below a parent that has one. -/
  | noPosition (anchor parent : Key)
  /-- The supply of fresh keys has run out. -/
  | suppliesExhausted
deriving DecidableEq

/-- The families of reasons. -/
inductive ErrorKind where
  /-- A key is not in the tree. -/
  | missingNode
  /-- A handle is older than the trees it is read from. -/
  | staleHandle
  /-- A reference does not resolve. -/
  | unresolvedReference
  /-- A tree is not at hand. -/
  | missingTree
  /-- A delta cannot be replayed. -/
  | malformedDelta
  /-- A tree would be left out of shape. -/
  | malformedTree
  /-- A key cannot be made. -/
  | invalidKey
  /-- Arithmetic left the range of its numbers; there is nothing to tell but that. -/
  | outOfRange
deriving DecidableEq

/-- The reason in words. -/
def DeltaFault.message : DeltaFault → String
  | .notForBacking base backing =>
    "delta is based on " ++ base.display ++ ", buffer is backed by " ++ backing.display
  | .notForBase base actual => "delta is based on " ++ base.display ++ ", not " ++ actual.display
  | .repeatedKey key => "key " ++ key.display ++ " appears more than once"
  | .producedTwice key => "key " ++ key.display ++ " is produced more than once"
  | .referenceWithChildren key => "tree-reference " ++ key.display ++ " has children of its own"
  | .leavesBacking reference backing =>
    "reference " ++ reference.display ++ " does not point into " ++ backing.display
  | .leavesBase key reference base =>
    key.display ++ " refers to " ++ reference.display ++ " outside of " ++ base.display
  | .insideUnchanged key ancestor =>
    key.display ++ " also lies inside the unchanged subtree at " ++ ancestor.display

/-- The reason in words. -/
def ShapeFault.message : ShapeFault → String
  | .notAChild anchor parent => anchor.display ++ " is not a child of " ++ parent.display
  | .positionTaken key => "allocated key " ++ key.display ++ " is already in use"
  | .secondRoot key root =>
    "cannot add root " ++ key.display ++ ": tree already has root " ++ root.display
  | .storedWithoutRoot key => key.display ++ " is already in the tree"
  | .rootBelow key parent => "cannot move root " ++ key.display ++ " below " ++ parent.display
  | .belowItself key parent =>
    "cannot move " ++ key.display ++ " below its own descendant " ++ parent.display
  | .cyclicDonor donor => "donor " ++ donor.display ++ " takes part in a reference cycle"
  | .misplacedReference target =>
    "a tree-reference to " ++ target.display ++ " must be stored under its target key"
  | .retargeted key target =>
    key.display ++ " cannot hold a tree-reference to " ++ target.display ++
      "; a change buffer keeps tree-references at their target key"
  | .generatedTaken key => "generated key " ++ key.display ++ " is already in use"

/-- The reason in words. -/
def PathFault.message : PathFault → String
  | .unclosedLabel components =>
    "path [" ++ ", ".intercalate (components.map fun component => toString component.toInt) ++
      "] does not end with an odd component"
  | .rootHasNoSiblings => "the root has no sibling positions"
  | .notSiblings left right => left.text ++ " and " ++ right.text ++ " are not siblings"
  | .notBefore left right => left.text ++ " does not sort before " ++ right.text
  | .overflow => "a component leaves the 32-bit range"
  | .emptyLabel => "a label stops in its middle"

namespace TreeError

/-- The family of a reason. -/
def kind : TreeError → ErrorKind
  | .nodeNotFound _ => .missingNode
  | .staleHandle _ _ => .staleHandle
  | .unresolved _ => .unresolvedReference
  | .treeUnavailable _ => .missingTree
  | .delta _ => .malformedDelta
  | .shape _ => .malformedTree
  | .path .overflow | .path .emptyLabel | .suppliesExhausted => .outOfRange
  | .path _ | .noPosition _ _ => .invalidKey

/-- The reason in words, with the family in front. -/
def message : TreeError → String
  | .nodeNotFound key => "Node not found: " ++ key.display
  | .staleHandle recorded current =>
    "Stale proxy node (created at generation " ++ toString recorded ++ ", tree is at " ++
      toString current ++ ")"
  | .unresolved reference => "Could not resolve reference " ++ reference.display
  | .treeUnavailable tree => "Tree not available for resolution: " ++ tree.display
  | .delta fault => "Malformed delta: " ++ fault.message
  | .shape fault => "Invalid tree structure: " ++ fault.message
  | .path fault => "Invalid key: " ++ fault.message
  | .noPosition anchor parent =>
    "Invalid key: " ++ anchor.display ++ " has no position below " ++ parent.display
  | .suppliesExhausted => "The supply of fresh keys has run out"

end TreeError

end VersionedTrees
