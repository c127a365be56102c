import VersionedTrees.Content
import VersionedTrees.Tree.Editable
import VersionedTrees.Tree.Walk

/-!
# Making one tree equal to another

Synchronizing edits a destination until it holds what a source holds, and edits only what differs.
Nodes are written in pre-order, so that each has its parent; a node with the right payload below the
right parent is left alone. What the source does not have is deleted afterwards, and a root with
another key beforehand. Payloads are compared as they are stored.

A destination may read a tree-reference through, as a change buffer does. What it then shows below
the key that was written belongs to the reference and is kept.
-/

namespace VersionedTrees

/-- A destination on the way to become equal to a source. -/
structure Synchronization (τ : Type) where
  destination : τ
  /-- The keys of the source so far. -/
  seen : KeySet := ∅
  /-- The keys that hold a tree-reference which the destination reads through. -/
  covered : KeySet := ∅
  /-- The number of nodes that were written. -/
  written : Nat := 0

namespace Synchronization

variable {τ C : Type} [Editable τ C]

/-- An edit of the destination. -/
def edit {α : Type} (edit : Edit τ α) : Edit (Synchronization τ) α :=
  Edit.onPart (·.destination) (fun destination progress => { progress with destination }) edit

/-- The destination as it is now. -/
def tree : Edit (Synchronization τ) (Tree C) := do
  return Editable.tree (← Edit.current).destination

/-- Whether the destination has a payload under a key and below a parent already. -/
def isUnchanged [DecidableEq C] (destination : Tree C) (key : Key) (parent : Option Key)
    (payload : Payload C) : Read Bool := do
  match ← destination.node key with
  | none => return false
  | some existing =>
    if existing.payload = payload then
      return (← destination.parent key) = parent
    else
      return false

/-- Whether the destination shows something else than the tree-reference that was just written. -/
def readsThrough [DecidableEq C] (destination : Tree C) (key : Key) (payload : Payload C) :
    Read Bool := do
  if payload.isTreeReference then
    return (← destination.node key).any (·.payload ≠ payload)
  else
    return false

/-- Writes a node. -/
def write [DecidableEq C] (key : Key) (parent : Option Key) (payload : Payload C) :
    Edit (Synchronization τ) Unit := do
  Edit.report (.writingNode key)
  let _ ← edit (Editable.insert parent (.exactly key) payload)
  Edit.when (← readsThrough (← tree) key payload) <| Edit.modify fun progress =>
    { progress with covered := progress.covered.insert key }
  Edit.modify fun progress => { progress with written := progress.written + 1 }

/-- Makes one node of the source part of the destination. -/
def visit [DecidableEq C] (source : Tree C) (key : Key) : Edit (Synchronization τ) Unit := do
  let payload ← source.payload key
  let parent ← source.parent key
  Edit.when (!(← isUnchanged (← tree) key parent payload)) (write key parent payload)
  Edit.modify fun progress => { progress with seen := progress.seen.insert key }

/-- Collects a key that the source does not have; otherwise goes on with the children, unless they
belong to a reference. Later siblings come first. -/
def findStale (destination : Tree C) (seen covered : KeySet) (key : Key) :
    Edit (List Key) (List Key) := do
  if !seen.contains key then
    Edit.modify (· ++ [key])
    return []
  else if covered.contains key then
    return []
  else
    return (← destination.children key).reverse

/-- The topmost keys of the destination that the source does not have. -/
def staleKeys (destination : Tree C) (seen covered : KeySet) : Read (List Key) := do
  match ← destination.rootKey with
  | none => return []
  | some root =>
    let sweep := depthFirst (findStale destination seen covered) destination.levels root
    return (← sweep.toRead []).2

/-- Deletes the root of the destination if it is not that of the source. -/
def dropOtherRoot (source : Tree C) : Edit (Synchronization τ) Unit := do
  let sourceRoot ← source.rootKey
  let destination ← tree (τ := τ) (C := C)
  match ← destination.rootKey with
  | none => return ()
  | some root => Edit.when (sourceRoot ≠ some root) (edit (Editable.delete root))

/-- Makes the destination equal to the source. -/
def run [DecidableEq C] (source : Tree C) : Edit (Synchronization τ) Unit := do
  dropOtherRoot source
  source.visit (visit source)
  let progress ← Edit.current
  let stale ← staleKeys (Editable.tree progress.destination) progress.seen progress.covered
  stale.forM fun key => edit (Editable.delete key)
  let destination ← tree (τ := τ) (C := C)
  Edit.report
    (.appliedTree destination.id progress.written stale.length progress.covered.size)

end Synchronization

/-- Makes an editable tree equal to a source. After a failure the tree keeps what was written. -/
def synchronize {τ C : Type} [Editable τ C] [DecidableEq C] (source : Tree C) : Edit τ Unit :=
  fun destination =>
    let after := (Synchronization.run source).run { destination := destination }
    ⟨after.events, after.state.destination, after.result⟩

end VersionedTrees
