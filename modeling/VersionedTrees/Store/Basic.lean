import Std.Data.TreeMap
import VersionedTrees.Key.Supply
import VersionedTrees.Tree.Basic

/-!
# Stores

A store is a tree held in memory: a table of slots, one for each node, and the key of the root. A
slot holds the payload together with the links to the parent and to the children, so that every
question about a node is one look-up. Children are kept in key order, which for positions is
document order.
-/

namespace VersionedTrees

/-- What a store keeps for one node. -/
structure Slot (C : Type) where
  payload : Payload C
  parent : Option Key
  children : KeySet

/-- A tree held in memory. -/
structure Store (C : Type) where
  id : TreeId
  /-- The key of the root, unless the tree is empty. -/
  root : Option Key
  /-- What is kept for each node. -/
  slots : Std.TreeMap Key (Slot C)
  /-- The fresh keys for children of nodes with opaque keys. -/
  supply : KeySupply
  /-- The number of edits so far. A counter of 64 bits would wrap round after 2^64 of them, which is out of
  reach; this one never does. -/
  generation : Nat

namespace Store

variable {C : Type}

/-- The tree without nodes. -/
def empty (id : TreeId) (supply : KeySupply := {}) : Store C :=
  ⟨id, none, ∅, supply, 0⟩

/-- The slot of a key, if there is a node under it. -/
def slot? (store : Store C) (key : Key) : Option (Slot C) :=
  store.slots[key]?

/-- The payload of a key, if there is a node under it. -/
def payload? (store : Store C) (key : Key) : Option (Payload C) :=
  (store.slot? key).map (·.payload)

/-- Whether there is a node under a key. -/
def contains (store : Store C) (key : Key) : Bool :=
  store.slots.contains key

/-- The number of nodes. -/
def size (store : Store C) : Nat :=
  store.slots.size

/-- Whether there are no nodes. -/
def isEmpty (store : Store C) : Bool :=
  store.slots.isEmpty

/-- All keys, in key order. -/
def keys (store : Store C) : List Key :=
  store.slots.keys

/-- All keys with their payloads, in key order. -/
def entries (store : Store C) : List (Key × Payload C) :=
  store.slots.toList.map fun entry => (entry.1, entry.2.payload)

/-- The node under a key, if there is one. -/
def node? (store : Store C) (key : Key) : Option (Node C) :=
  (store.payload? key).map (⟨key, ·⟩)

/-- The slot of a key, or a failure for want of the node. -/
def slot (store : Store C) (key : Key) : Except TreeError (Slot C) :=
  match store.slot? key with
  | none => .error (.nodeNotFound key)
  | some slot => .ok slot

/-- A store as a readable tree. -/
def tree (store : Store C) : Tree C where
  id := store.id
  generation := store.generation
  span := store.size
  root := pure (store.root.bind store.node?)
  rootKey := pure store.root
  node key := pure (store.node? key)
  contains key := pure (store.contains key)
  parent key := Read.ofExcept ((store.slot key).map (·.parent))
  children key := Read.ofExcept ((store.slot key).map (·.children.toList))

end Store

end VersionedTrees
