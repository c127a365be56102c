import VersionedTrees.Effect.Read

/-!
# Readable trees

A tree can be asked for nodes by key and for the parent and the children of a node; nothing needs a
traversal. Stores, renamed views, merged views and change buffers are all read through this one
interface.
-/

namespace VersionedTrees

/-- What a tree can be asked. -/
structure Tree (C : Type) where
  /-- What the tree is known by. -/
  id : TreeId
  /-- A number that changes whenever the tree is modified. -/
  generation : Nat
  /-- The number of keys the tree can show at most. -/
  span : Nat
  /-- The root node, unless the tree is empty. -/
  root : Read (Option (Node C))
  /-- The key of the root node, unless the tree is empty. -/
  rootKey : Read (Option Key)
  /-- The node under a key, if there is one. -/
  node : Key → Read (Option (Node C))
  /-- Whether there is a node under a key. -/
  contains : Key → Read Bool
  /-- The key of a node's parent; the root has none. Fails for want of the node. -/
  parent : Key → Read (Option Key)
  /-- The keys of a node's children, in sibling order. Fails for want of the node. -/
  children : Key → Read (List Key)

namespace Tree

variable {C : Type}

/-- The payload under a key, or a failure for want of the node. -/
def payload (tree : Tree C) (key : Key) : Read (Payload C) := do
  let node ← Read.orFail (.nodeNotFound key) (← tree.node key)
  return node.payload

end Tree

end VersionedTrees
