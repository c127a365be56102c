import VersionedTrees.Donors.Index
import VersionedTrees.Store.Edit

/-!
# Normal forms against donors

Normalizing restates a tree as references into donors wherever it can. Nodes are taken in pre-order.
A node whose resolved subtree equals one that a donor stores becomes a tree-reference to it, and
nothing below it is kept. Otherwise a tree-reference stays as it is, a node whose content equals
that of a donor node becomes a node-reference, and any other node holds its resolved content. The
first match counts, in the order of the donor index.
-/

namespace VersionedTrees

/-- A tree restated as references. -/
structure Normalized (C : Type) where
  /-- The restated tree. Its identifier and its keys are those of the tree it restates. -/
  tree : Store C
  /-- The keys that hold references. -/
  references : KeySet

namespace Normalized

variable {C : Type}

/-- Adds a node to the restated tree. -/
def add (key : Key) (parent : Option Key) (payload : Payload C) : Edit (Normalized C) Unit := do
  Edit.when payload.isReference <| Edit.modify fun normalized =>
    { normalized with references := normalized.references.insert key }
  let _ ← Edit.ofFunction fun normalized =>
    let (result, tree) := normalized.tree.insert parent (.exactly key) payload
    (result, { normalized with tree })

/-- What a node without matching subtree becomes: a reference to equal content, or the content. -/
def contentPayload [Content C] (index : DonorIndex) (donors : Donors C) (key : Key)
    (payload : Payload C) (digest : NodeDigest) : Read (Payload C) := do
  match index.content? digest.content with
  | none => return .content (← donors.resolve payload)
  | some reference =>
    if ← donors.sameContent payload (.nodeReference reference) then
      Read.report (.contentMatched key reference)
      return .nodeReference reference
    else
      return .content (← donors.resolve payload)

/-- What a node becomes, and whether the nodes below it are kept. -/
def restate [Content C] (index : DonorIndex) (donors : Donors C) (key : Key)
    (payload : Payload C) (digest : NodeDigest) : Read (Payload C × Bool) := do
  match index.subtree? digest.subtree with
  | some reference =>
    Read.report (.subtreeMatched key reference)
    return (.treeReference reference, false)
  | none =>
    match payload with
    | .treeReference reference => return (.treeReference reference, false)
    | .content _ | .nodeReference _ =>
      return (← contentPayload index donors key payload digest, true)

/-- Restates one node and names the nodes to go on with. -/
def step [Content C] (target : Tree C) (index : DonorIndex) (digests : DigestTable)
    (donors : Donors C) (item : Key × Option Key) :
    Edit (Normalized C) (List (Key × Option Key)) := do
  let (key, parent) := item
  let payload ← target.payload key
  let digest ← Read.orFail (.nodeNotFound key) digests.nodes[key]?
  let (restated, descend) ← restate index donors key payload digest
  add key parent restated
  if descend then
    return (← target.children key).map (·, some key)
  else
    return []

/-- Restates one tree. -/
def ofTree [Content C] (index : DonorIndex) (donors : Donors C) (target : Tree C) :
    Read (Normalized C) := do
  let digests ← index.digestsOf target donors
  let start : Normalized C := ⟨Store.empty target.id, ∅⟩
  match ← target.rootKey with
  | none => return start
  | some root =>
    let visit := depthFirst (step target index digests donors) target.levels (root, none)
    let (_, normalized) ← visit.toRead start
    Read.report (.normalizedTree target.id normalized.tree.size normalized.references.size)
    return normalized

end Normalized

/-- Restates trees as references into donors. -/
def Donors.normalize {C : Type} [Content C] (donors : Donors C) (targets : List (Tree C)) :
    Read (List (Normalized C)) := do
  let index ← DonorIndex.build donors
  targets.mapM (Normalized.ofTree index donors)

end VersionedTrees
