import VersionedTrees.Donors.Basic
import VersionedTrees.Store.Edit

/-!
# Expansion of references

Expanding replaces references by what they stand for. A node-reference becomes the content of its
target. A tree-reference becomes that content together with copies of the nodes below the target,
under their donor keys. References that the caller allows are kept: by the key of the node that
holds them or by the key of their target. A copied donor node that is allowed stands for its own
subtree again, as a tree-reference to itself.

No key may come up twice.
-/

namespace VersionedTrees

/-- Where a node of an expansion comes from. -/
inductive Origin where
  /-- The tree that is expanded. -/
  | own (key : Key)
  /-- A donor. -/
  | donor (tree : TreeId) (key : Key)
deriving DecidableEq

/-- An expansion that is being built. -/
structure Expansion (C : Type) where
  tree : Store C
  /-- The number of nodes that were copied or had a reference replaced. -/
  materialized : Nat

/-- Which references an expansion keeps. -/
structure Kept where
  /-- Keeps the references of these nodes. -/
  nodes : Key → Bool := fun _ => false
  /-- Keeps the references to these targets. -/
  targets : Key → Bool := fun _ => false

/-- Whether the reference of a node is kept. -/
def Kept.keeps (kept : Kept) (key target : Key) : Bool :=
  kept.nodes key || kept.targets target

namespace Expansion

variable {C : Type}

/-- What a node becomes: its payload, where the nodes below it come from, and whether it counts as
materialized. -/
structure Outcome (C : Type) where
  key : Key
  payload : Payload C
  children : List Origin
  materialized : Bool

/-- Expands a node of the tree itself. -/
def expandOwn (tree : Tree C) (kept : Kept) (donors : Donors C) (key : Key) :
    Read (Outcome C) := do
  let payload ← tree.payload key
  match payload with
  | .content _ =>
    return ⟨key, payload, (← tree.children key).map .own, false⟩
  | .nodeReference reference =>
    if kept.keeps key reference.key then
      return ⟨key, payload, (← tree.children key).map .own, false⟩
    else
      let content ← donors.resolve payload
      return ⟨key, .content content, (← tree.children key).map .own, true⟩
  | .treeReference reference =>
    if kept.keeps key reference.key then
      return ⟨key, payload, [], false⟩
    else
      let donor ← donors.find reference.tree
      let content ← donors.resolve payload
      let children ← donor.children reference.key
      return ⟨key, .content content, children.map (.donor reference.tree), true⟩

/-- Copies a donor node. -/
def expandDonor (kept : Kept) (donors : Donors C) (id : TreeId) (key : Key) :
    Read (Outcome C) := do
  if kept.keeps key key then
    return ⟨key, .treeReference ⟨id, key⟩, [], false⟩
  else
    let donor ← donors.find id
    let payload ← donor.payload key
    return ⟨key, payload, (← donor.children key).map (.donor id), true⟩

/-- Expands a node, wherever it comes from. -/
def expandNode (tree : Tree C) (kept : Kept) (donors : Donors C) : Origin → Read (Outcome C)
  | .own key => expandOwn tree kept donors key
  | .donor id key => expandDonor kept donors id key

/-- Counts a node that was copied or had a reference replaced. -/
def count (materialized : Bool) : Edit (Expansion C) Unit :=
  Edit.modify fun expansion =>
    { expansion with materialized := expansion.materialized + materialized.toNat }

/-- Adds a node to the expansion. Its key must be new. -/
def add (key : Key) (parent : Option Key) (payload : Payload C) :
    Edit (Expansion C) Unit := do
  Read.require (!(← Edit.current).tree.contains key) (.delta (.producedTwice key))
  Edit.report (.expandedNode key payload.isReference)
  let _ ← Edit.ofFunction fun expansion =>
    let (result, tree) := expansion.tree.insert parent (.exactly key) payload
    (result, { expansion with tree })

/-- Expands one node and names the nodes to go on with. -/
def step (tree : Tree C) (kept : Kept) (donors : Donors C) (item : Origin × Option Key) :
    Edit (Expansion C) (List (Origin × Option Key)) := do
  let (origin, parent) := item
  let outcome ← expandNode tree kept donors origin
  count outcome.materialized
  add outcome.key parent outcome.payload
  return outcome.children.map (·, some outcome.key)

/-- The number of levels an expansion can have without a key coming up twice, and one more. -/
def levels (tree : Tree C) (donors : Donors C) : Nat :=
  donors.trees.foldl (fun total donor => total + donor.span) (tree.span + 2)

end Expansion

/-- A tree with its references replaced by what they stand for, but for those that are kept. -/
def Donors.expand {C : Type} (donors : Donors C) (tree : Tree C) (kept : Kept := {}) :
    Read (Store C) := do
  match ← tree.rootKey with
  | none => return Store.empty tree.id
  | some root =>
    let visit := depthFirst (Expansion.step tree kept donors) (Expansion.levels tree donors)
      (.own root, none)
    let (_, expansion) ← visit.toRead ⟨Store.empty tree.id, 0⟩
    Read.report (.expandedReferences tree.id expansion.tree.size expansion.materialized)
    return expansion.tree

end VersionedTrees
