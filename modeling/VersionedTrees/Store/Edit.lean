import VersionedTrees.Store.Basic

/-!
# Editing a store

A node is inserted below a parent, or as the root. The caller gives its key or asks for a place
among the siblings. Below a parent with a position the new key encodes that place; below an opaque
parent it is a fresh number and the children stay in key order. Inserting a key that is there
already replaces its payload and moves it, with all that is below it, to the new parent.

An edit that fails leaves the tree as it was. Only a fresh number that was handed out by then stays
handed out.
-/

namespace VersionedTrees

/-- A place among the siblings below a parent. -/
inductive Place where
  /-- Before all siblings. -/
  | first
  /-- After all siblings. -/
  | last
  /-- Directly before a sibling. -/
  | before (anchor : Key)
  /-- Directly after a sibling. -/
  | after (anchor : Key)
deriving DecidableEq

/-- What a caller says about the key of a new node. -/
inductive Placement where
  /-- It is exactly this key. -/
  | exactly (key : Key)
  /-- It is chosen so that the node stands in this place. -/
  | automatic (place : Place)
deriving DecidableEq

/-- The key of a root that is inserted with a placement. -/
def Placement.rootKey : Placement → Key
  | .exactly key => key
  | .automatic _ => .root

namespace Store

variable {C : Type}

/-- The children of a node that its position is the parent of, in order. -/
def siblings (store : Store C) (parent : Key) (position : PathKey) : List PathKey :=
  match store.slot? parent with
  | none => []
  | some slot => (slot.children.toList.filterMap Key.position?).filter position.isParentOf

/-- Splits the siblings at an anchor: those before it, the anchor itself, and those after it. -/
def splitSiblings (siblings : List PathKey) (parent anchor : Key) :
    Except TreeError (List PathKey × PathKey × List PathKey) :=
  match anchor.position? with
  | none => .error (.noPosition anchor parent)
  | some position =>
    match siblings.span (· ≠ position) with
    | (before, found :: after) => .ok (before, found, after)
    | (_, []) => .error (.shape (.notAChild anchor parent))

/-- A position before all siblings. -/
def positionBefore (parent : PathKey) : List PathKey → Except PathFault PathKey
  | [] => .ok parent.firstChild
  | first :: _ => first.before

/-- A position after all siblings. -/
def positionAfter (parent : PathKey) (siblings : List PathKey) : Except PathFault PathKey :=
  match siblings.getLast? with
  | none => .ok parent.firstChild
  | some last => last.after

/-- A position directly after `found`, before the siblings that follow it. -/
def positionBehind (found : PathKey) : List PathKey → Except PathFault PathKey
  | [] => found.after
  | next :: _ => PathKey.between found next

/-- A position directly before `found`, after the siblings that precede it. -/
def positionAhead (found : PathKey) (before : List PathKey) : Except PathFault PathKey :=
  match before.getLast? with
  | none => found.before
  | some previous => PathKey.between previous found

/-- The free position for a place among siblings. -/
def freePosition (parent : Key) (position : PathKey) (siblings : List PathKey) :
    Place → Except TreeError PathKey
  | .first => (positionBefore position siblings).mapError .path
  | .last => (positionAfter position siblings).mapError .path
  | .before anchor => do
    let (before, found, _) ← splitSiblings siblings parent anchor
    (positionAhead found before).mapError .path
  | .after anchor => do
    let (_, found, after) ← splitSiblings siblings parent anchor
    (positionBehind found after).mapError .path

/-- The key for a place among the siblings below a parent that has a position. -/
def choosePosition (store : Store C) (parent : Key) (position : PathKey) (place : Place) :
    Except TreeError Key := do
  let chosen ← freePosition parent position (store.siblings parent position) place
  if store.contains (.path chosen) then
    .error (.shape (.positionTaken (.path chosen)))
  else
    .ok (.path chosen)

/-- The next fresh key, and the supply that is left. -/
def freshKey (store : Store C) : Except TreeError (Key × KeySupply) :=
  match store.supply.take? with
  | none => .error .suppliesExhausted
  | some taken => .ok taken

/-- The key for a new child, and the supply of fresh keys that is left. -/
def allocate (store : Store C) (parent : Key) : Placement → Except TreeError (Key × KeySupply)
  | .exactly key => .ok (key, store.supply)
  | .automatic place =>
    match parent.position? with
    | none => store.freshKey
    | some position => (store.choosePosition parent position place).map (·, store.supply)

/-- A key and the keys above it, up to the root, in at most `levels` steps. -/
def lineageWithin (store : Store C) : Nat → Key → List Key
  | 0, key => [key]
  | levels + 1, key =>
    key ::
      match (store.slot? key).bind (·.parent) with
      | none => []
      | some parent => store.lineageWithin levels parent

/-- A key and the keys above it, up to the root. -/
def lineage (store : Store C) (key : Key) : List Key :=
  store.lineageWithin store.size key

/-- Changes the slot of a key, if there is one. -/
def changeSlot (store : Store C) (key : Key) (change : Slot C → Slot C) : Store C :=
  { store with slots := store.slots.modify key change }

/-- Sets the slot of a key. -/
def putSlot (store : Store C) (key : Key) (slot : Slot C) : Store C :=
  { store with slots := store.slots.insert key slot }

/-- Counts an edit. -/
def advance (store : Store C) : Store C :=
  { store with generation := store.generation + 1 }

/-- Takes a key out of its parent's children. -/
def detach (store : Store C) (parent key : Key) : Store C :=
  store.changeSlot parent fun slot => { slot with children := slot.children.erase key }

/-- Adds a key to its parent's children. -/
def attach (store : Store C) (parent key : Key) : Store C :=
  store.changeSlot parent fun slot => { slot with children := slot.children.insert key }

/-- Puts a node with a payload below a parent, new or moved from where it was. -/
def putBelow (store : Store C) (parent key : Key) (payload : Payload C) :
    Except TreeError (Store C) :=
  match store.slot? key with
  | none =>
    .ok ((store.putSlot key ⟨payload, some parent, ∅⟩).attach parent key).advance
  | some ⟨_, none, _⟩ => .error (.shape (.rootBelow key parent))
  | some ⟨_, some previous, _⟩ =>
    if key ∈ store.lineage parent then
      .error (.shape (.belowItself key parent))
    else
      .ok (((store.detach previous key).changeSlot key fun slot =>
        { slot with payload, parent := some parent }).attach parent key).advance

/-- Puts a payload at the root, which is new or has the same key. -/
def putRoot (store : Store C) (key : Key) (payload : Payload C) :
    Except TreeError (Store C) :=
  match store.root with
  | none =>
    if store.contains key then
      .error (.shape (.storedWithoutRoot key))
    else
      .ok { store.putSlot key ⟨payload, none, ∅⟩ with root := some key }.advance
  | some root =>
    if root = key then
      .ok (store.changeSlot key fun slot => { slot with payload }).advance
    else
      .error (.shape (.secondRoot key root))

/-- Inserts a node below a parent, or as the root, and tells its key. -/
def insert (store : Store C) (parent : Option Key) (placement : Placement)
    (payload : Payload C) : Except TreeError Key × Store C :=
  match parent with
  | none =>
    match store.putRoot placement.rootKey payload with
    | .error error => (.error error, store)
    | .ok next => (.ok placement.rootKey, next)
  | some parent =>
    if store.contains parent then
      match store.allocate parent placement with
      | .error error => (.error error, store)
      | .ok (key, supply) =>
        match ({ store with supply } : Store C).putBelow parent key payload with
        | .error error => (.error error, { store with supply })
        | .ok next => (.ok key, next)
    else
      (.error (.nodeNotFound parent), store)

/-- Puts content at the root. -/
def setRoot (store : Store C) (content : C) : Except TreeError Key × Store C :=
  store.insert none (.automatic .first) (.content content)

/-- Adds content as the last child of a node. -/
def append (store : Store C) (parent : Key) (content : C) : Except TreeError Key × Store C :=
  store.insert (some parent) (.automatic .last) (.content content)

/-- Replaces the payload of a node. -/
def update (store : Store C) (key : Key) (payload : Payload C) : Except TreeError (Store C) :=
  if store.contains key then
    .ok (store.changeSlot key fun slot => { slot with payload }).advance
  else
    .error (.nodeNotFound key)

/-- The first of the pending keys that has a slot, with the slot and the keys that are pending after it. -/
def nextPending (slots : Std.TreeMap Key (Slot C)) : List Key → Option (Key × Slot C × List Key)
  | [] => none
  | key :: pending =>
    match slots[key]? with
    | none => nextPending slots pending
    | some slot => some (key, slot, pending)

/-- Takes out the slots of the pending keys. The children of a slot that is taken out become pending, the last
of them first, and come before what was pending by then. Each step takes out a slot, so that `room` steps are
enough for that many slots. -/
def withoutPending : Nat → List Key → Std.TreeMap Key (Slot C) → Std.TreeMap Key (Slot C)
  | 0, _, slots => slots
  | room + 1, pending, slots =>
    match nextPending slots pending with
    | none => slots
    | some (key, slot, rest) =>
      withoutPending room (slot.children.toList.reverse ++ rest) (slots.erase key)

/-- Takes the link to a node out of its parent, or out of the store if it is the root. -/
def unlink (store : Store C) (key : Key) : Option Key → Store C
  | some parent => store.detach parent key
  | none => { store with root := none }

/-- Removes a node and all that lies below it. -/
def delete (store : Store C) (key : Key) : Except TreeError (Store C) := do
  let slot ← store.slot key
  let unlinked := store.unlink key slot.parent
  return { unlinked with slots := withoutPending unlinked.size [key] unlinked.slots }.advance

/-- Inserts nodes in order, each with its parent, its key and its payload. Tells which one could not
be inserted, counting from zero. -/
def insertAll (store : Store C) (index : Nat := 0) :
    List (Option Key × Key × Payload C) → Except (Nat × TreeError) (Store C)
  | [] => .ok store
  | (parent, key, payload) :: rest =>
    match store.insert parent (.exactly key) payload with
    | (.error error, _) => .error (index, error)
    | (.ok _, store) => store.insertAll (index + 1) rest

/-- Removes all nodes. -/
def clear (store : Store C) : Store C :=
  { store with root := none, slots := ∅ }.advance

end Store

end VersionedTrees
