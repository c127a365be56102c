import VersionedTrees.Store.Basic
import VersionedTrees.View.Merged
import VersionedTrees.View.Renamed

/-!
# Views

A view is a way of reading stores: a store itself, a view under other keys, or a front view over a
back view. Views nest to any depth. Whatever it is built from, a view is read as a tree.
-/

namespace VersionedTrees

/-- A way of reading stores. -/
inductive View (C : Type) where
  /-- A store as it is. -/
  | store (store : Store C)
  /-- A view under the front keys of a key map. -/
  | renamed (inner : View C) (keys : KeyMap)
  /-- A front view over a back view. -/
  | merged (front back : View C) (keys : KeyMap) (hidden : KeySet) (settings : ViewSettings)
      (trap : Option Trap)

namespace View

variable {C : Type}

/-- A view as a readable tree. -/
def tree : View C → Tree C
  | .store held => held.tree
  | .renamed inner keys => inner.tree.renamed keys
  | .merged front back keys hidden settings trap =>
    (Merged.mk front.tree back.tree keys hidden settings trap).tree

end View

end VersionedTrees
