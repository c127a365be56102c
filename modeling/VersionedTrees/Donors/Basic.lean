import VersionedTrees.Content
import VersionedTrees.Tree.Walk

/-!
# Donors

Donors are the trees that references are resolved against, in order of preference. A reference is
followed exactly one step: a target that is itself a reference does not resolve. Two trees are the
same up to resolution when they have the same keys in the same places and each key resolves to the
same content in both.
-/

namespace VersionedTrees

/-- The trees that references are resolved against; the first with an identifier counts. -/
structure Donors (C : Type) where
  trees : List (Tree C)

namespace Donors

variable {C : Type}

/-- The donor with an identifier. -/
def find (donors : Donors C) (id : TreeId) : Read (Tree C) :=
  Read.orFail (.treeUnavailable id) (donors.trees.find? (·.id == id))

/-- The node that a reference points at. -/
def target (donors : Donors C) (reference : Reference) : Read (Node C) := do
  let donor ← donors.find reference.tree
  Read.orFail (.unresolved reference) (← donor.node reference.key)

/-- The content that a payload stands for. -/
def resolve (donors : Donors C) : Payload C → Read C
  | .content value => return value
  | .nodeReference reference | .treeReference reference => do
    let node ← donors.target reference
    Read.orFail (.unresolved reference) node.payload.content?

/-- Whether two payloads are equal or stand for the same content. -/
def sameContent [DecidableEq C] (donors : Donors C) (left right : Payload C) : Read Bool := do
  if left = right then
    return true
  else
    let ours ← donors.resolve left
    let theirs ← donors.resolve right
    return ours = theirs

/-- Goes on only if a condition holds. -/
def requireThat (condition : Bool) : OptionT Read Unit :=
  if condition then pure () else failure

/-- Goes on only if a key has the same content and the same children in two trees. -/
def requireSameNode [DecidableEq C] (donors : Donors C) (left right : Tree C) (key : Key) :
    OptionT Read Unit := do
  let ours ← OptionT.lift (left.node key)
  let theirs ← OptionT.lift (right.node key)
  match ours, theirs with
  | some ours, some theirs =>
    requireThat (← OptionT.lift (donors.sameContent ours.payload theirs.payload))
    let leftChildren ← OptionT.lift (left.children key)
    let rightChildren ← OptionT.lift (right.children key)
    requireThat (leftChildren = rightChildren)
  | _, _ => failure

/-- Whether two trees are the same up to resolution: the same root, and at each key of the first the
same content and the same children. A tree-reference counts as its content alone. -/
def sameTree [DecidableEq C] (donors : Donors C) (left right : Tree C) : Read Bool := do
  let ours ← left.rootKey
  let theirs ← right.rootKey
  if ours = theirs then
    return (← (left.visit (donors.requireSameNode left right)).run).isSome
  else
    return false

end Donors

end VersionedTrees
