import VersionedTrees.Tree.Walk

/-!
# Listings

A listing shows a tree in pre-order, one item for each key, up to a limit. It keeps the items before
a failure, so that a tree can be shown that cannot be read to its end, and it ends on a tree that
shows a key below itself.

Lists of keys and of nodes stop reading as soon as they have enough items. Rows go on to the next
key, so that a listing of rows that is cut is told from one that is complete.
-/

namespace VersionedTrees

/-- How a listing ended. -/
inductive Ending where
  /-- Everything is listed. -/
  | complete
  /-- The next item could not be read. -/
  | failed (error : TreeError)
  /-- There are as many items as were asked for. -/
  | cut
deriving DecidableEq

/-- The items of a tree in pre-order. -/
structure Listing (α : Type) where
  items : List α
  ending : Ending

/-- A node as it is listed: the key, the parent, and the payload if the node can be read. -/
structure Row (C : Type) where
  key : Key
  parent : Option Key
  payload : Option (Payload C)

/-- The making of a listing, with the items so far, the latest first. It ends early by throwing. -/
abbrev Collect (α : Type) : Type → Type := ExceptT Unit (Edit (List α))

namespace Collect

variable {α : Type}

/-- Adds an item. -/
def add (item : Read α) : Collect α Unit := do
  let value ← item
  (Edit.modify (value :: ·) : Edit (List α) Unit)

/-- Ends a listing that has enough items. -/
def endAt (limit : Nat) : Collect α Unit := do
  let items ← (Edit.current : Edit (List α) (List α))
  if limit ≤ items.length then throw ()

end Collect

/-- What came of the making of a listing. One that has enough items is cut, whatever comes next. -/
def Listing.ofCollected {α : Type} (limit : Nat) (outcome : Edited (List α) (Except Unit Unit)) :
    Read (Listing α) :=
  let ending := match outcome.result with
    | .ok (.ok ()) => Ending.complete
    | .ok (.error ()) => .cut
    | .error error => if limit ≤ outcome.state.length then .cut else .failed error
  ⟨outcome.events, .ok ⟨outcome.state.reverse, ending⟩⟩

namespace Tree

variable {C α : Type}

/-- Takes a step for a key and for each key below it, in pre-order. A listing that ends at a limit
goes no more levels down than one past it. -/
def collect (tree : Tree C) (limit : Nat) (step : Key → Collect α Unit) (key : Key) :
    Read (Listing α) :=
  Listing.ofCollected limit ((tree.visitWithin step (limit + 1) key).run.run [])

/-- Starts a listing at the root. -/
def listRoot (tree : Tree C) (list : Key → Read (Listing α)) : Read (Listing α) := do
  match ← tree.rootKey.outcome with
  | .error error => return ⟨[], .failed error⟩
  | .ok none => return ⟨[], .complete⟩
  | .ok (some root) => list root

/-- Lists an item for a key and for each key below it, until there are `limit`. -/
def listFrom (tree : Tree C) (limit : Nat) (item : Key → Read α) (key : Key) :
    Read (Listing α) :=
  let step (key : Key) : Collect α Unit := do
    Collect.add (item key)
    Collect.endAt limit
  tree.collect limit step key

/-- The keys at and below a key. -/
def listKeysFrom (tree : Tree C) (limit : Nat) (key : Key) : Read (Listing Key) :=
  tree.listFrom limit pure key

/-- All keys. -/
def listKeys (tree : Tree C) (limit : Nat) : Read (Listing Key) :=
  tree.listRoot (tree.listKeysFrom limit)

/-- The node under a key that a walk has come to. -/
def walkedNode (tree : Tree C) (key : Key) : Read (Node C) := do
  Read.orFail (.nodeNotFound key) (← tree.node key)

/-- The nodes at and below a key. A node that cannot be read is listed as the failure. -/
def listNodesFrom (tree : Tree C) (limit : Nat) (key : Key) :
    Read (Listing (Except TreeError (Node C))) :=
  tree.listFrom limit (fun key => (tree.walkedNode key).outcome) key

/-- A key as it is listed. -/
def row (tree : Tree C) (key : Key) : Read (Row C) := do
  let node ← tree.node key
  let parent ← tree.parent key
  return ⟨key, parent, node.map (·.payload)⟩

/-- At most `limit` rows for a key and the keys below it. -/
def rowsFrom (tree : Tree C) (limit : Nat) (key : Key) : Read (Listing (Row C)) :=
  let step (key : Key) : Collect (Row C) Unit := do
    Collect.endAt limit
    Collect.add (tree.row key)
  tree.collect limit step key

/-- At most `limit` rows for all keys. -/
def rows (tree : Tree C) (limit : Nat) : Read (Listing (Row C)) :=
  tree.listRoot (tree.rowsFrom limit)

end Tree

end VersionedTrees
