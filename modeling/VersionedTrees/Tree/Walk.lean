import VersionedTrees.Effect.Edit
import VersionedTrees.Tree.Basic

/-!
# Depth-first visits

`depthFirst` handles an item, lets the handling say which items come next, and goes through each of
those with all that follows from it before the next one. Walks over trees in pre-order are the case
in which the children of a key come next.

A visit stops at the first failure. It is bounded by a number of levels. A tree shows at most
`Tree.span` keys, so a chain of children that is longer shows some key twice, and a walk that meets
a key below itself would never end.
-/

namespace VersionedTrees

/-- Handles an item and then, one after the other, what its handling asks for, at most `levels`
levels deep. -/
def depthFirst {m : Type → Type} [Monad m] {α : Type} (handle : α → m (List α)) :
    Nat → α → m Unit
  | 0, _ => pure ()
  | levels + 1, item => do
    let next ← handle item
    next.forM (depthFirst handle levels)

namespace Tree

variable {C : Type}

/-- The keys at and below a key in pre-order, at most `levels` levels deep. -/
def keysWithin (tree : Tree C) : Nat → Key → Read (List Key)
  | 0, _ => return []
  | levels + 1, key => do
    let children ← tree.children key
    let below ← children.mapM (tree.keysWithin levels)
    return key :: below.flatten

/-- The number of levels that a walk over the tree can reach. -/
def levels (tree : Tree C) : Nat :=
  tree.span + 1

/-- The keys at and below a key, in pre-order. -/
def keysFrom (tree : Tree C) (key : Key) : Read (List Key) :=
  tree.keysWithin tree.levels key

/-- All keys, in pre-order. -/
def keys (tree : Tree C) : Read (List Key) := do
  match ← tree.rootKey with
  | none => return []
  | some root => tree.keysFrom root

variable {m : Type → Type} [Monad m] [MonadLiftT Read m]

/-- Visits a key and then those below it in pre-order, at most `levels` levels deep. The children of
a key are asked for before the key is visited. -/
def visitWithin (tree : Tree C) (visit : Key → m Unit) : Nat → Key → m Unit :=
  depthFirst fun key => do
    let children ← (tree.children key : Read (List Key))
    visit key
    return children

/-- Visits a key and then those below it in pre-order. -/
def visitFrom (tree : Tree C) (visit : Key → m Unit) (key : Key) : m Unit :=
  tree.visitWithin visit tree.levels key

/-- Visits all keys in pre-order. -/
def visit (tree : Tree C) (visit : Key → m Unit) : m Unit := do
  match ← (tree.rootKey : Read (Option Key)) with
  | none => return ()
  | some root => tree.visitFrom visit root

end Tree

end VersionedTrees
