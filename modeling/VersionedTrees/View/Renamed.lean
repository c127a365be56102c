import VersionedTrees.Key.Pairing
import VersionedTrees.Tree.Basic

/-!
# Renamed views

A renamed view shows a tree under the front keys of a key map. A node whose own key has no front key
is not shown. Payloads are shown as they are: a reference keeps naming its target's own key.
-/

namespace VersionedTrees

namespace Tree

variable {C : Type}

/-- A tree under the front keys of a key map. -/
def renamed (inner : Tree C) (keys : KeyMap) : Tree C where
  id := inner.id
  generation := inner.generation
  span := inner.span
  root := rootNode
  rootKey := do return (← rootNode).map (·.key)
  node := node
  contains key := do return (← node key).isSome
  parent key := do
    let back ← backKey key
    return (← inner.parent back).bind keys.front?
  children key := do
    let back ← backKey key
    return (← inner.children back).filterMap keys.front?
where
  /-- The root, if its key has a front key. -/
  rootNode : Read (Option (Node C)) := do
    let found ← inner.root
    return found.bind fun node => (keys.front? node.key).map (⟨·, node.payload⟩)
  /-- The node that a front key stands for. -/
  node (key : Key) : Read (Option (Node C)) :=
    match keys.back? key with
    | none => pure none
    | some back => do return (← inner.node back).map fun node => ⟨key, node.payload⟩
  /-- The back key of a front key, or a failure for want of it. -/
  backKey (key : Key) : Read Key :=
    Read.orFail (.nodeNotFound key) (keys.back? key)

end Tree

end VersionedTrees
