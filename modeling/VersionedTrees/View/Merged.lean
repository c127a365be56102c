import VersionedTrees.Key.Pairing
import VersionedTrees.Settings
import VersionedTrees.Tree.Basic

/-!
# Merged views

A merged view shows a front tree over the backing tree that its references point into, and never
shows a reference. It uses the keys of the front. A front node with content is shown as it is; a
node-reference lends the content of its target; a tree-reference stands for the whole backing
subtree of its target. A key that the front does not have is looked up in the back through a key
map, unless the back key is hidden.

A `Handle` is a node of such a view. It records the generation of both trees, and reading it after
either has changed fails. A failed resolution goes to the view's trap, if there is one, and reads as
absent then; without a trap the read fails.
-/

namespace VersionedTrees

/-- The tree that a shown node is read from. -/
inductive Side where
  /-- The front, under the shown key. -/
  | front
  /-- The back, under a key of its own. -/
  | back (key : Key)
deriving DecidableEq

/-- A node of a merged view, apart from the view that gave it. -/
structure Handle where
  key : Key
  side : Side
  /-- The generation of the view when it gave the handle. -/
  generation : Nat
deriving DecidableEq

/-- A front tree over a backing tree. -/
structure Merged (C : Type) where
  front : Tree C
  back : Tree C
  keys : KeyMap
  /-- The back keys that are not shown. -/
  hidden : KeySet := ∅
  settings : ViewSettings := {}
  trap : Option Trap := none

namespace Merged

variable {C α : Type}

/-- The generations of both trees together. -/
def generation (view : Merged C) : Nat :=
  view.front.generation + view.back.generation

/-- Hands a failed resolution to the trap, which makes the value absent. -/
def trapped (view : Merged C) (read : Read (Option α)) : Read (Option α) :=
  match read.result, view.trap with
  | .error (.unresolved reference), some trap =>
    ⟨read.events ++ [trap.caught (.unresolved reference)], .ok none⟩
  | _, _ => read

/-- A handle as of now. -/
def handle (view : Merged C) (key : Key) (side : Side) : Handle :=
  ⟨key, side, view.generation⟩

/-- Fails if either tree has changed since the handle was given and the view looks for that. -/
def check (view : Merged C) (handle : Handle) : Read Unit :=
  Read.require (!view.settings.checkStaleness || handle.generation = view.generation)
    (.staleHandle handle.generation view.generation)

/-- The back key that a reference points at. It has to name the backing tree and a node in it. -/
def backingTarget (view : Merged C) (reference : Reference) : Read Key := do
  Read.require (reference.tree = view.back.id) (.unresolved reference)
  Read.require (← view.back.contains reference.key) (.unresolved reference)
  return reference.key

/-- Where a key is read from, if it is shown. -/
def locate (view : Merged C) (key : Key) : Read (Option Side) := do
  match ← view.front.node key with
  | some node =>
    match node.payload with
    | .treeReference reference => return some (.back (← view.backingTarget reference))
    | .content _ | .nodeReference _ => return some .front
  | none =>
    match view.keys.back? key with
    | none => return none
    | some back =>
      if view.hidden.contains back then
        return none
      else if ← view.back.contains back then
        return some (.back back)
      else
        return none

/-- The node under a key, if it is shown. -/
def get (view : Merged C) (key : Key) : Read (Option Handle) := do
  let located ← view.trapped (view.locate key)
  return located.map (view.handle key)

/-- The root, unless the view is empty. It is that of the front; over an empty front it is that of
the back. -/
def getRoot (view : Merged C) : Read (Option Handle) := do
  match ← view.front.rootKey with
  | some root => view.get root
  | none =>
    match ← view.back.rootKey with
    | none => return none
    | some root =>
      if view.hidden.contains root then
        return none
      else
        return (view.keys.front? root).map fun key => view.handle key (.back root)

/-- The key of a handle. -/
def keyOf (view : Merged C) (handle : Handle) : Read Key := do
  view.check handle
  return handle.key

/-- The content of a front node, references followed. -/
def frontContent (view : Merged C) (key : Key) : Read (Option C) := do
  match ← view.front.payload key with
  | .content value => return some value
  | .nodeReference reference | .treeReference reference =>
    let target ← view.backingTarget reference
    match (← view.back.node target).map Node.payload with
    | some (.content value) => return some value
    | _ => Read.fail (.unresolved reference)

/-- The content of a back node. A reference in the back is not followed. -/
def backContent (view : Merged C) (key : Key) : Read (Option C) := do
  match ← view.back.payload key with
  | .content value => return some value
  | .nodeReference reference | .treeReference reference => Read.fail (.unresolved reference)

/-- The content of a node, never a reference. It is absent only if a trap took the failure. -/
def content (view : Merged C) (handle : Handle) : Read (Option C) := do
  view.check handle
  view.trapped <| match handle.side with
    | .front => view.frontContent handle.key
    | .back key => view.backContent key

/-- Whether the front holds a tree-reference under a key. -/
def isFrontTreeReference (view : Merged C) (key : Key) : Read Bool := do
  return (← view.front.node key).any (·.payload.isTreeReference)

/-- The key of a node's parent. A node that a tree-reference stands for has the parent of the
reference. -/
def parentKey (view : Merged C) (handle : Handle) : Read (Option Key) :=
  match handle.side with
  | .front => view.front.parent handle.key
  | .back key => do
    if ← view.isFrontTreeReference handle.key then
      view.front.parent handle.key
    else
      return (← view.back.parent key).bind view.keys.front?

/-- The parent of a node; the root has none. -/
def parentOf (view : Merged C) (handle : Handle) : Read (Option Handle) := do
  view.check handle
  match ← view.parentKey handle with
  | none => return none
  | some key => view.get key

/-- Those of some front keys that are shown. -/
def frontChildren (view : Merged C) : List Key → Read (List Handle)
  | [] => return []
  | key :: rest => do
    let located ← view.trapped (view.locate key)
    let others ← view.frontChildren rest
    return (located.map (view.handle key)).toList ++ others

/-- Those of some back keys that are not hidden and have a front key. -/
def backChildren (view : Merged C) (keys : List Key) : List Handle :=
  (keys.filter fun key => !view.hidden.contains key).filterMap fun back =>
    (view.keys.front? back).map fun key => view.handle key (.back back)

/-- The children of a node, in sibling order. -/
def childrenOf (view : Merged C) (handle : Handle) : Read (List Handle) := do
  view.check handle
  match handle.side with
  | .front => view.frontChildren (← view.front.children handle.key)
  | .back key => return view.backChildren (← view.back.children key)

/-- The node under a key, or a failure for want of it. -/
def require (view : Merged C) (key : Key) : Read Handle := do
  Read.orFail (.nodeNotFound key) (← view.get key)

/-- The keys of the children of a key. -/
def childKeys (view : Merged C) (key : Key) : Read (List Key) := do
  let handle ← view.require key
  return (← view.childrenOf handle).map (·.key)

/-- A handle's node with its content. -/
def materialize (view : Merged C) (handle : Handle) : Read (Option (Node C)) := do
  return (← view.content handle).map fun value => ⟨handle.key, .content value⟩

/-- The root with its content. -/
def rootNode (view : Merged C) : Read (Option (Node C)) := do
  match ← view.getRoot with
  | none => return none
  | some handle => view.materialize handle

/-- A merged view as a readable tree. -/
def tree (view : Merged C) : Tree C where
  id := view.front.id
  generation := view.generation
  span := view.front.span + view.back.span
  root := view.rootNode
  rootKey := do return (← view.rootNode).map (·.key)
  node key := do
    match ← view.get key with
    | none => return none
    | some handle => view.materialize handle
  contains key := do return (← view.get key).isSome
  parent key := do
    let handle ← view.require key
    return (← view.parentOf handle).map (·.key)
  children := view.childKeys

end Merged

end VersionedTrees
