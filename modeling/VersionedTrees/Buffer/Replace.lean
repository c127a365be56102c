import VersionedTrees.Buffer.Basic
import VersionedTrees.Delta.Basic

/-!
# Replacing the state of a change buffer by a delta

A delta whose references point into the backing tree becomes the state of a buffer without being
expanded. A tree-reference to its own key becomes a lazy node. One to another key copies the payload
of its target and leaves the children of the target lazy. Node-references stay as they are. Backing
nodes that the delta does not cover are listed as deleted.
-/

namespace VersionedTrees

/-- A buffer whose state is being replaced. -/
structure Replacement (C : Type) where
  buffer : Buffer C
  /-- The number of lazy nodes so far. -/
  lazyCount : Nat := 0
  /-- The number of nodes with content so far. -/
  copied : Nat := 0

namespace Replacement

variable {C : Type}

/-- An edit of the buffer. -/
def edit {α : Type} (edit : Edit (Buffer C) α) : Edit (Replacement C) α :=
  Edit.onPart (·.buffer) (fun buffer replacement => { replacement with buffer }) edit

/-- Counts a lazy node. -/
def countLazy : Edit (Replacement C) Unit :=
  Edit.modify fun replacement => { replacement with lazyCount := replacement.lazyCount + 1 }

/-- Counts a node with content. -/
def countCopied : Edit (Replacement C) Unit :=
  Edit.modify fun replacement => { replacement with copied := replacement.copied + 1 }

/-- Fails if the overlay has a key already. -/
def requireNew (key : Key) : Edit (Replacement C) Unit := do
  Read.require (!(← Edit.current).buffer.overlay.contains key) (.delta (.repeatedKey key))

/-- Adds a node of the overlay. -/
def add (key : Key) (parent : Option Key) (payload : Payload C) : Edit (Replacement C) Unit := do
  let _ ← edit (Buffer.insertOverlay parent (.exactly key) payload)

/-- Adds a backing child as a lazy node. -/
def addLazyChild (parent child : Key) : Edit (Replacement C) Unit := do
  requireNew child
  edit (Buffer.addLazy (some parent) child)
  countLazy

/-- Adds a node that stands for the backing subtree under its own key. -/
def addLazy (key : Key) (parent : Option Key) (reference : Reference) :
    Edit (Replacement C) Unit := do
  Edit.report (.lazyNode key)
  add key parent (.treeReference reference)
  countLazy

/-- Adds a copy of a backing node under another key, with the backing children as lazy nodes. -/
def addCopy (key : Key) (parent : Option Key) (reference : Reference) :
    Edit (Replacement C) Unit := do
  Edit.report (.copiedNode key reference)
  let backing := (← Edit.current).buffer.backingTree
  add key parent (← backing.payload reference.key)
  countCopied
  (← backing.children reference.key).forM (addLazyChild key)

/-- Adds a node that stands for a backing subtree. It cannot have children of its own. -/
def addTreeReference (delta : Tree C) (key : Key) (parent : Option Key) (reference : Reference) :
    Edit (Replacement C) Unit := do
  Read.require (← delta.children key).isEmpty (.delta (.referenceWithChildren key))
  if reference.key = key then
    addLazy key parent reference
  else
    addCopy key parent reference

/-- Adds a node of the delta and names the nodes to go on with. -/
def step (delta : Tree C) (item : Key × Option Key) :
    Edit (Replacement C) (List (Key × Option Key)) := do
  let (key, parent) := item
  let payload ← delta.payload key
  requireNew key
  (← Edit.current).buffer.checkPayload payload
  match payload with
  | .treeReference reference =>
    addTreeReference delta key parent reference
    return []
  | .content _ | .nodeReference _ =>
    Edit.when (!payload.isReference) countCopied
    add key parent payload
    return (← delta.children key).map (·, some key)

end Replacement

namespace Buffer

variable {C : Type}

/-- Fails if one of the keys from `cursor` upwards is lazy; `key` would then be there twice. -/
def rejectLazyAncestors (buffer : Buffer C) (key : Key) : Nat → Option Key → Read Unit
  | _, none | 0, _ => return ()
  | levels + 1, some ancestor => do
    if buffer.isLazy ancestor then
      Read.fail (.delta (.insideUnchanged key ancestor))
    else
      buffer.rejectLazyAncestors key levels (← buffer.backingTree.parent ancestor)

/-- Fails if a key lies in a backing subtree that a lazy node above it stands for. -/
def rejectKeyInsideLazySubtree (buffer : Buffer C) (key : Key) : Read Unit := do
  if ← buffer.backingTree.contains key then
    buffer.rejectLazyAncestors key buffer.backingTree.levels (← buffer.backingTree.parent key)
  else
    return ()

/-- Fails if an overlay key lies in a backing subtree that a lazy node stands for. -/
def rejectKeysInsideLazySubtrees (buffer : Buffer C) : Read Unit :=
  buffer.overlay.keys.forM buffer.rejectKeyInsideLazySubtree

/-- Lists a backing key as deleted if the overlay does not have it, and goes on below it, unless it
is lazy. Later siblings come first. -/
def hideUncoveredNode (key : Key) : Edit (Buffer C) (List Key) := do
  let buffer ← Edit.current
  if buffer.isLazy key then
    return []
  else
    Edit.when (!buffer.overlay.contains key) (hide key)
    return (← buffer.backingTree.children key).reverse

/-- Lists the backing keys that neither the overlay nor a lazy subtree has as deleted. -/
def hideUncovered : Edit (Buffer C) Unit := do
  let backing := (← Edit.current).backingTree
  match ← backing.rootKey with
  | none => return ()
  | some root => depthFirst hideUncoveredNode backing.levels root

/-- Adds all nodes of a delta, from its root on, to an empty overlay. Tells how many are lazy and
how many have content. -/
def takeOver (delta : Tree C) (root : Key) : Edit (Buffer C) (Nat × Nat) := fun buffer =>
  let visit := depthFirst (Replacement.step delta) (delta.levels + 1) (root, none)
  let after := visit.run { buffer := buffer }
  ⟨after.events, after.state.buffer,
    after.result.map fun _ => (after.state.lazyCount, after.state.copied)⟩

/-- Replaces the state by a delta. A delta without nodes deletes the whole backing tree. -/
def replace (delta : Tree C) : Edit (Buffer C) Unit := do
  reset
  let backing := (← Edit.current).backingTree
  match ← delta.rootKey with
  | none =>
    match ← backing.rootKey with
    | none => return ()
    | some root => hideBackingSubtree root
  | some root =>
    let (lazyCount, copied) ← takeOver delta root
    (← Edit.current).rejectKeysInsideLazySubtrees
    hideUncovered
    Edit.report
      (.bufferReplaced backing.id lazyCount copied (← Edit.current).deleted.size)

/-- Replaces the state by a delta that was made for the backing tree. -/
def applyDelta (delta : Delta C) : Edit (Buffer C) Unit := do
  let backing := (← Edit.current).backingTree
  Read.require (delta.base = backing.id) (.delta (.notForBacking delta.base backing.id))
  replace delta.tree.tree

end Buffer

end VersionedTrees
