import VersionedTrees.Delta.WireForm

/-!
# Deltas on the wire

A delta is sent as bytes, and read from them by a receiver that has the base. What was read is
checked: the base is that of the receiver's tree, the keys of nodes are complete and do not repeat,
every node comes after its parent, and every reference points at a node of the base.
-/

namespace VersionedTrees

/-- What can go wrong on the wire, besides what can go wrong with the trees. -/
inductive WireFault where
  /-- There is no room for the bytes. -/
  | noRoom
  /-- The bytes do not stand for a delta. -/
  | unreadable
  /-- A key is listed twice. -/
  | repeatedKey (key : Key)
  /-- The delta was made for another base. -/
  | otherBase (expected found : TreeId)
deriving DecidableEq

/-- The fault in words. -/
def WireFault.message : WireFault → String
  | .noRoom => "Failed to encode delta: no room"
  | .unreadable => "Failed to decode delta: not a delta"
  | .repeatedKey key => "Failed to decode delta: key " ++ key.display ++ " appears more than once"
  | .otherBase expected found =>
    "Delta is based on " ++ found.display ++ ", but the local base is " ++ expected.display

/-- A read that may fail on the wire. -/
abbrev WireRead : Type → Type := ExceptT WireFault Read

/-- Goes on if a condition holds and fails otherwise. -/
def WireRead.require (condition : Bool) (fault : WireFault) : WireRead Unit :=
  if condition then pure () else throw fault

namespace Delta

variable {C : Type} [WireContent C]

/-- A node of the delta as it travels. -/
def wireNode (delta : Delta C) (key : Key) : Read (WireNode C) := do
  let payload ← delta.tree.tree.payload key
  let parent ← delta.tree.tree.parent key
  return ⟨key, parent, payload⟩

/-- The delta as it travels. -/
def toWire (delta : Delta C) : Read (WireDelta C) := do
  let keys ← delta.tree.tree.keys
  return ⟨delta.base, delta.tree.id, ← keys.mapM delta.wireNode⟩

/-- The delta as bytes. -/
def encode (delta : Delta C) : Read (List UInt8) := do
  let wire ← delta.toWire
  let bytes := wire.encode
  Read.report (.encodedDelta delta.base wire.nodes.length bytes.length)
  return bytes

/-- The delta as bytes in a space of a given size, filled up with zeros. -/
def encodeWithin (delta : Delta C) (room : Nat) : WireRead (List UInt8) := do
  let wire ← (delta.toWire : Read (WireDelta C))
  let bytes := wire.encode
  WireRead.require (bytes.length ≤ room) .noRoom
  (Read.report (.encodedDelta delta.base wire.nodes.length bytes.length) : Read Unit)
  return bytes ++ List.replicate (room - bytes.length) 0

/-- Fails if the key of a node stops in the middle of a label. -/
def requireComplete : Key → Read Unit
  | .path position =>
    match PathKey.ofComponents position.components with
    | .error fault => Read.fail (.path fault)
    | .ok _ => pure ()
  | .number _ | .text _ => pure ()

/-- Adds a node that was read. Its key must be complete and new. -/
def addWireNode (store : Store C) (node : WireNode C) : WireRead (Store C) := do
  (requireComplete node.key : Read Unit)
  WireRead.require (!store.contains node.key) (.repeatedKey node.key)
  match store.insert node.parent (.exactly node.key) node.payload with
  | (.error error, _) => (Read.fail error : Read (Store C))
  | (.ok _, store) => return store

/-- The delta that was read, checked against the receiver's tree. -/
def ofWire (wire : WireDelta C) (base : Tree C) : WireRead (Delta C) := do
  WireRead.require (wire.base = base.id) (.otherBase base.id wire.base)
  let tree ← wire.nodes.foldlM addWireNode (Store.empty wire.tree)
  let delta : Delta C := ⟨wire.base, tree⟩
  (delta.verify base : Read Unit)
  return delta

/-- The delta that bytes stand for, checked against the receiver's tree. -/
def decode (bytes : List UInt8) (base : Tree C) : WireRead (Delta C) := do
  match WireDelta.decode? bytes with
  | none => throw .unreadable
  | some wire =>
    let delta ← ofWire wire base
    (Read.report (.decodedDelta delta.base wire.nodes.length bytes.length) : Read Unit)
    return delta

end Delta

end VersionedTrees
