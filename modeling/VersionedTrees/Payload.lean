import VersionedTrees.Key.Basic

/-!
# What a node holds

A node holds content of its own or a reference into another tree. A node-reference lends the content
of one node and leaves the children local; a tree-reference stands for a whole subtree, children
included.
-/

namespace VersionedTrees

/-- A node of some tree, or the subtree below it. -/
structure Reference where
  tree : TreeId
  key : Key
deriving DecidableEq

/-- A reference as text: the key, then the tree. -/
def Reference.display (reference : Reference) : String :=
  reference.key.display ++ "@" ++ reference.tree.display

/-- Content, or a reference into another tree. -/
inductive Payload (C : Type) where
  /-- Content of the node's own. -/
  | content (value : C)
  /-- The content of one node of another tree; the children stay local. -/
  | nodeReference (target : Reference)
  /-- A whole subtree of another tree, children included. -/
  | treeReference (target : Reference)
deriving DecidableEq

namespace Payload

variable {C : Type}

/-- The content, if the payload is not a reference. -/
def content? : Payload C → Option C
  | .content value => some value
  | .nodeReference _ | .treeReference _ => none

/-- The target, if the payload is a reference of either kind. -/
def reference? : Payload C → Option Reference
  | .content _ => none
  | .nodeReference target | .treeReference target => some target

/-- Whether the payload is a reference of either kind. -/
def isReference (payload : Payload C) : Bool :=
  payload.reference?.isSome

/-- Whether the payload stands for a whole subtree. -/
def isTreeReference : Payload C → Bool
  | .treeReference _ => true
  | .content _ | .nodeReference _ => false

variable {payload : Payload C} {value : C}

theorem isTreeReference_eq_false (notReference : payload.isReference = false) :
    payload.isTreeReference = false := by
  cases payload with
  | content _ => rfl
  | nodeReference _ => rfl
  | treeReference _ => cases notReference

/-- What is no reference is content. -/
theorem exists_content (notReference : payload.isReference = false) :
    ∃ value, payload = .content value := by
  cases payload with
  | content value => exact ⟨value, rfl⟩
  | nodeReference _ => cases notReference
  | treeReference _ => cases notReference

theorem content?_eq_some_iff : payload.content? = some value ↔ payload = .content value := by
  cases payload with
  | content other =>
      exact ⟨fun same => congrArg _ (Option.some.inj same), fun same => by cases same; rfl⟩
  | nodeReference reference => exact iff_of_false nofun nofun
  | treeReference reference => exact iff_of_false nofun nofun

end Payload

/-- A node as a tree shows it. -/
structure Node (C : Type) where
  key : Key
  payload : Payload C
deriving DecidableEq

end VersionedTrees
