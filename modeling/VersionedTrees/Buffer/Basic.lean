import VersionedTrees.Effect.Edit
import VersionedTrees.Store.Edit
import VersionedTrees.Tree.Walk
import VersionedTrees.View.Basic

/-!
# Change buffers

A change buffer holds changes to a backing tree without copying it. Its overlay has the nodes that
were touched. An overlay node is either materialized, with content or a node-reference, or *lazy*: a
tree-reference to its own key in the backing tree, which stands for the backing subtree as it is.
Backing keys that the current state does not have any more are listed as deleted. The current state
is what the merged view of overlay and backing shows; that of an empty buffer is the backing tree.

This module has the state, its view, and the steps that edits are made of: bringing a shown node
into the overlay, turning a lazy node into one with content and lazy children, hiding what a removed
node stood for, and letting a node stand for its backing subtree again.
-/

namespace VersionedTrees

/-- Changes to a backing tree. -/
structure Buffer (C : Type) where
  backing : View C
  /-- The nodes that were touched, with references left in place. -/
  overlay : Store C
  /-- The backing keys that the current state does not have. -/
  deleted : KeySet := ∅
  settings : ViewSettings := {}
  trap : Option Trap := none

namespace Buffer

variable {C : Type}

/-- A buffer without changes. -/
def unchanged (backing : View C) (settings : ViewSettings := {}) (trap : Option Trap := none) :
    Buffer C :=
  ⟨backing, Store.empty backing.tree.id, ∅, settings, trap⟩

/-- The tree under the changes. -/
def backingTree (buffer : Buffer C) : Tree C :=
  buffer.backing.tree

/-- The current state as a merged view. -/
def merged (buffer : Buffer C) : Merged C :=
  ⟨buffer.overlay.tree, buffer.backingTree, .identity, buffer.deleted, buffer.settings,
    buffer.trap⟩

/-- The current state as a view. -/
def view (buffer : Buffer C) : View C :=
  .merged (.store buffer.overlay) buffer.backing .identity buffer.deleted buffer.settings
    buffer.trap

/-- The current state as a readable tree. -/
def tree (buffer : Buffer C) : Tree C :=
  buffer.view.tree

/-- The payload that lets a node stand for its backing subtree. -/
def lazyPayload (buffer : Buffer C) (key : Key) : Payload C :=
  .treeReference ⟨buffer.backingTree.id, key⟩

/-- Whether a payload lets a node stand for its backing subtree. -/
def isLazyPayload (buffer : Buffer C) (key : Key) : Payload C → Bool
  | .treeReference reference => reference.tree == buffer.backingTree.id && reference.key == key
  | .content _ | .nodeReference _ => false

/-- Whether an overlay node stands for its backing subtree. -/
def isLazy (buffer : Buffer C) (key : Key) : Bool :=
  (buffer.overlay.payload? key).any (buffer.isLazyPayload key)

/-- Whether a payload is content. -/
def isMaterializedPayload (payload : Payload C) : Bool :=
  !payload.isReference

/-- Whether the overlay has content under a key. -/
def isMaterialized (buffer : Buffer C) (key : Key) : Bool :=
  (buffer.overlay.payload? key).any isMaterializedPayload

/-- The number of overlay nodes with content. -/
def materializedCount (buffer : Buffer C) : Nat :=
  buffer.overlay.entries.countP fun entry => isMaterializedPayload entry.2

/-- The number of lazy nodes. -/
def lazyCount (buffer : Buffer C) : Nat :=
  buffer.overlay.entries.countP fun entry => buffer.isLazyPayload entry.1 entry.2

/-- An edit of the overlay. -/
def onOverlay {α : Type} (edit : Edit (Store C) α) : Edit (Buffer C) α :=
  Edit.onPart (·.overlay) (fun overlay buffer => { buffer with overlay }) edit

/-- Inserts a node into the overlay. -/
def insertOverlay (parent : Option Key) (placement : Placement) (payload : Payload C) :
    Edit (Buffer C) Key :=
  onOverlay (Edit.ofFunction (·.insert parent placement payload))

/-- Replaces the payload of an overlay node. -/
def updateOverlay (key : Key) (payload : Payload C) : Edit (Buffer C) Unit :=
  onOverlay (Edit.attempt (·.update key payload))

/-- Removes an overlay node and all that lies below it. -/
def deleteOverlay (key : Key) : Edit (Buffer C) Unit :=
  onOverlay (Edit.attempt (·.delete key))

/-- Lists a backing key as deleted. -/
def hide (key : Key) : Edit (Buffer C) Unit :=
  Edit.modify fun buffer => { buffer with deleted := buffer.deleted.insert key }

/-- Takes a backing key off the list of the deleted. -/
def reveal (key : Key) : Edit (Buffer C) Unit :=
  Edit.modify fun buffer => { buffer with deleted := buffer.deleted.erase key }

/-- Drops all changes. -/
def reset : Edit (Buffer C) Unit :=
  Edit.modify fun buffer => { buffer with overlay := buffer.overlay.clear, deleted := ∅ }

/-- Fails unless a payload is content or points at a node of the backing tree. -/
def checkPayload (buffer : Buffer C) (payload : Payload C) : Read Unit := do
  match payload.reference? with
  | none => return ()
  | some reference =>
    Read.require (reference.tree = buffer.backingTree.id)
      (.delta (.leavesBacking reference buffer.backingTree.id))
    Read.require (← buffer.backingTree.contains reference.key) (.nodeNotFound reference.key)

/-- Adds a backing key to the overlay as a lazy node. -/
def addLazy (parent : Option Key) (key : Key) : Edit (Buffer C) Unit := do
  let buffer ← Edit.current
  let _ ← insertOverlay parent (.exactly key) (buffer.lazyPayload key)

/-- Lets the root stand for the whole backing tree, if the overlay is empty and the backing root is
not deleted. -/
def seed : Edit (Buffer C) Unit := do
  let buffer ← Edit.current
  if buffer.overlay.isEmpty then
    match ← buffer.backingTree.rootKey with
    | none => return ()
    | some root => Edit.when (!buffer.deleted.contains root) (addLazy none root)
  else
    return ()

/-- Adds a backing child to the overlay as a lazy node, unless it is deleted or there already. -/
def addLazyChild (parent child : Key) : Edit (Buffer C) Unit := do
  let buffer ← Edit.current
  Edit.when (!buffer.deleted.contains child && !buffer.overlay.contains child)
    (addLazy (some parent) child)

/-- Turns a lazy node into one that has the backing payload and lazy children. Other nodes stay as
they are. -/
def expandLazy (key : Key) : Edit (Buffer C) Unit := do
  let buffer ← Edit.current
  if buffer.isLazy key then
    updateOverlay key (← buffer.backingTree.payload key)
    (← buffer.backingTree.children key).forM (addLazyChild key)
    Edit.report (.expandedLazyNode key)
  else
    return ()

/-- Climbs from a backing key to the nearest ancestor in the overlay, if there is one. The keys on
the way are listed from the top down; `wanted` is not found if one of them is deleted. -/
def climb (buffer : Buffer C) (wanted : Key) : Nat → Option Key → Read (Option Key × List Key)
  | _, none => return (none, [])
  | 0, some _ => Read.fail (.nodeNotFound wanted)
  | levels + 1, some parent => do
    if buffer.overlay.contains parent then
      return (some parent, [])
    else if buffer.deleted.contains parent then
      Read.fail (.nodeNotFound wanted)
    else
      let (anchor, above) ← buffer.climb wanted levels (← buffer.backingTree.parent parent)
      return (anchor, above ++ [parent])

/-- Expands the overlay node that a wanted key was found below, which has to be lazy. Without such a
node the overlay has to be empty, and the backing root becomes lazy. -/
def expandAnchor (wanted : Key) : Option Key → Edit (Buffer C) Unit
  | some anchor => do
    Read.require ((← Edit.current).isLazy anchor) (.nodeNotFound wanted)
    expandLazy anchor
  | none => do
    Read.require (← Edit.current).overlay.isEmpty (.nodeNotFound wanted)
    seed

/-- Brings a key that the current state shows into the overlay, by expanding the lazy nodes above
it. The node itself may stay lazy. -/
def reach (key : Key) : Edit (Buffer C) Unit := do
  let buffer ← Edit.current
  if buffer.overlay.contains key then
    return ()
  else
    Read.require (!buffer.deleted.contains key) (.nodeNotFound key)
    Read.require (← buffer.backingTree.contains key) (.nodeNotFound key)
    let parent ← buffer.backingTree.parent key
    let (anchor, above) ← buffer.climb key buffer.backingTree.levels parent
    expandAnchor key anchor
    above.forM expandLazy
    Read.require ((← Edit.current).overlay.contains key) (.nodeNotFound key)

/-- Lists a backing key and all keys below it as deleted. -/
def hideBackingSubtree (key : Key) : Edit (Buffer C) Unit := do
  (← Edit.current).backingTree.visitFrom hide key

/-- Lists what an overlay node stands for as deleted. -/
def hideNode (key : Key) : Edit (Buffer C) Unit := do
  let buffer ← Edit.current
  if buffer.isLazy key then
    hideBackingSubtree key
  else
    Edit.when (← buffer.backingTree.contains key) (hide key)

/-- Removes an overlay node and all that lies below it, and lists what they stood for as deleted. -/
def removeOverlaySubtree (key : Key) : Edit (Buffer C) Unit := do
  let keys ← (← Edit.current).overlay.tree.keysFrom key
  keys.forM hideNode
  deleteOverlay key

/-- Settles whether a backing key below a restored node is deleted: it is if it stands elsewhere in
the overlay. -/
def settle (restored key : Key) : Edit (Buffer C) Unit := do
  if key ≠ restored ∧ (← Edit.current).overlay.contains key then
    hide key
  else
    reveal key

/-- Lets a node that has just become lazy stand for its whole backing subtree. -/
def restore (key : Key) : Edit (Buffer C) Unit := do
  let buffer ← Edit.current
  let children ← buffer.overlay.tree.children key
  children.forM removeOverlaySubtree
  buffer.backingTree.visitFrom (settle key) key

end Buffer

end VersionedTrees
