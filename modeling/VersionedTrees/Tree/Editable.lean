import VersionedTrees.Effect.Edit
import VersionedTrees.Store.Edit

/-!
# Editable trees

Stores and change buffers can be edited in place. An editable tree can be read at any time, and
takes insertions, deletions and updates.
-/

namespace VersionedTrees

/-- Types whose values are trees that can be edited in place. -/
class Editable (τ : Type) (C : outParam Type) where
  /-- The tree as it is now. -/
  tree : τ → Tree C
  /-- Inserts a node below a parent, or as the root, and tells its key. A key that is there already
  gets the payload and moves, with all that is below it, to the parent. -/
  insert : Option Key → Placement → Payload C → Edit τ Key
  /-- Removes a node and all that lies below it. -/
  delete : Key → Edit τ Unit
  /-- Replaces the payload of a node. -/
  update : Key → Payload C → Edit τ Unit

instance {C : Type} : Editable (Store C) C where
  tree := Store.tree
  insert parent placement payload := Edit.ofFunction (·.insert parent placement payload)
  delete key := Edit.attempt (·.delete key)
  update key payload := Edit.attempt (·.update key payload)

end VersionedTrees
