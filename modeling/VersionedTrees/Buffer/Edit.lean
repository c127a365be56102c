import VersionedTrees.Buffer.Basic
import VersionedTrees.Tree.Editable

/-!
# Editing a change buffer

A buffer takes the edits that a store takes. What an edit needs is brought into the overlay first,
and then the overlay is edited. References have to point into the backing tree, and a tree-reference
has to be stored under the key of its target: storing one restores the backing subtree.
-/

namespace VersionedTrees

namespace Buffer

variable {C : Type}

/-- The key that an insertion asks for, unless it leaves the choice to the tree. -/
def explicitKey (parent : Option Key) : Placement → Option Key
  | .exactly key => some key
  | .automatic _ => if parent.isNone then some .root else none

/-- Fails if a tree-reference would be stored under another key than that of its target. -/
def checkInsertedReference (explicit : Option Key) : Payload C → Read Unit
  | .treeReference reference =>
    Read.require (explicit = some reference.key) (.shape (.misplacedReference reference))
  | .content _ | .nodeReference _ => pure ()

/-- Brings the parent of a new node into the overlay, with its children. -/
def prepareParent : Option Key → Edit (Buffer C) Unit
  | some parent => do
    reach parent
    expandLazy parent
  | none => seed

/-- Brings a key into the overlay if it is a backing key. -/
def reachBacked (key : Key) : Edit (Buffer C) Unit := do
  Edit.when (← (← Edit.current).backingTree.contains key) (reach key)

/-- Brings the node that an insertion moves into the overlay. Tells whether there is one. -/
def prepareMoved : Option Key → Edit (Buffer C) Bool
  | none => return false
  | some key => do
    let buffer ← Edit.current
    Edit.when (!buffer.overlay.contains key && !buffer.deleted.contains key) (reachBacked key)
    return (← Edit.current).overlay.contains key

/-- Takes a new node out again, since its key is one that the current state shows elsewhere. -/
def takeBack (key : Key) : Edit (Buffer C) Unit := do
  deleteOverlay key
  Edit.fail (.shape (.generatedTaken key))

/-- Takes a new node out again if its key is one that the backing tree shows. -/
def rejectTakenKey (key : Key) (isTreeReference : Bool) : Edit (Buffer C) Unit := do
  let buffer ← Edit.current
  let isBacked ← buffer.backingTree.contains key
  Edit.when (isBacked && !buffer.deleted.contains key && !isTreeReference) (takeBack key)

/-- Inserts a node below a parent, or as the root, and tells its key. -/
def insert (parent : Option Key) (placement : Placement) (payload : Payload C) :
    Edit (Buffer C) Key := do
  (← Edit.current).checkPayload payload
  let explicit := explicitKey parent placement
  checkInsertedReference explicit payload
  prepareParent parent
  let existed ← prepareMoved explicit
  Edit.when (existed && !payload.isTreeReference) (explicit.toList.forM expandLazy)
  let key ← insertOverlay parent placement payload
  Edit.when (!existed) (rejectTakenKey key payload.isTreeReference)
  Edit.when payload.isTreeReference (restore key)
  return key

/-- Removes a node and all that lies below it. -/
def delete (key : Key) : Edit (Buffer C) Unit := do
  reach key
  removeOverlaySubtree key

/-- Fails if a tree-reference would be stored under another key than that of its target. -/
def checkUpdatedReference (key : Key) : Payload C → Read Unit
  | .treeReference reference =>
    Read.require (reference.key = key) (.shape (.retargeted key reference))
  | .content _ | .nodeReference _ => pure ()

/-- Replaces the payload of a node. -/
def update (key : Key) (payload : Payload C) : Edit (Buffer C) Unit := do
  (← Edit.current).checkPayload payload
  checkUpdatedReference key payload
  reach key
  Edit.when (!payload.isTreeReference) (expandLazy key)
  updateOverlay key payload
  Edit.when payload.isTreeReference (restore key)

/-- Replaces a reference by the backing payload of its target. -/
def copyTarget (key : Key) : Edit (Buffer C) Unit := do
  let buffer ← Edit.current
  match buffer.overlay.payload? key with
  | some (.nodeReference reference) =>
    updateOverlay key (← buffer.backingTree.payload reference.key)
  | _ => return ()

/-- Materializes a node and names the nodes below it, later siblings first. -/
def materializeNode (key : Key) : Edit (Buffer C) (List Key) := do
  expandLazy key
  copyTarget key
  return (← (← Edit.current).overlay.tree.children key).reverse

/-- Materializes a node and all that lies below it, with the content of node-references. -/
def expandAll (key : Key) : Edit (Buffer C) Unit := do
  reach key
  let buffer ← Edit.current
  depthFirst materializeNode (buffer.overlay.size + buffer.backingTree.span + 1) key

end Buffer

instance {C : Type} : Editable (Buffer C) C where
  tree := Buffer.tree
  insert := Buffer.insert
  delete := Buffer.delete
  update := Buffer.update

end VersionedTrees
