import VersionedTrees.Cbor.Lemmas
import VersionedTrees.Delta.Basic

/-!
# The wire form of deltas

A delta travels as one record: the base, the identifier of the delta tree, and the nodes of the tree
in pre-order, each with its key, its parent and its payload. Records have their fields in order of
the length of the names and then of their bytes. Keys and payloads are alternatives with names.

Records are read with their fields in any order, each once. Fields that are not known are skipped.
-/

namespace VersionedTrees

open Cbor

/-- Content that has a wire form. Content whose form is not too long for a head is read back. -/
class WireContent (C : Type) where
  encode : C → List UInt8
  decoder : Decoder C
  reads : ∀ value levels, (encode value).length < byteCapacity 8 →
    decoder.Reads (levels + 1) (encode value) value

/-- Texts travel as text strings. -/
instance : WireContent String where
  encode := encodeText
  decoder := Decoder.text
  reads value levels := Decoder.reads_text value (levels + 1)

/-- The wire form of a number below 256. -/
def encodeOctet (octet : UInt8) : List UInt8 :=
  encodeNat octet.toNat

/-- A number below 256. -/
def octetDecoder : Decoder UInt8 := do
  return UInt8.ofNat (← Decoder.nat 1)

/-- A number below 256 is read back. -/
theorem reads_octet (octet : UInt8) (levels : Nat) :
    octetDecoder.Reads levels (encodeOctet octet) octet := by
  intro rest
  have number := Decoder.reads_nat levels (.inl rfl) octet.toNat_lt rest
  simp [octetDecoder, encodeOctet, number]

/-- The wire form of numbers below 256. -/
def encodeOctets (octets : List UInt8) : List UInt8 :=
  encodeArray (octets.map encodeOctet)

/-- Numbers below 256 are read back if their form is not too long for a head. -/
theorem reads_octets (octets : List UInt8) (levels : Nat)
    (fits : (encodeOctets octets).length < byteCapacity 8) :
    (Decoder.array octetDecoder).Reads (levels + 1) (encodeOctets octets) octets := by
  apply Decoder.reads_array fun octet _ => reads_octet octet levels
  have count := length_le_length_encodeArray (octets.map encodeOctet) fun _ inside => by
    obtain ⟨octet, -, rfl⟩ := List.mem_map.mp inside
    exact length_head_pos .unsigned octet.toNat
  rw [List.length_map] at count
  exact Nat.lt_of_le_of_lt count fits

/-- Byte content travels as an array of numbers. -/
instance : WireContent (List UInt8) where
  encode := encodeOctets
  decoder := Decoder.array octetDecoder
  reads := reads_octets

/-- A 64-bit number. -/
def wordDecoder : Decoder UInt64 := do
  return UInt64.ofNat (← Decoder.nat 8)

/-- A component. -/
def componentDecoder : Decoder Int32 := do
  let value ← Decoder.int 4
  if -2147483648 ≤ value ∧ value < 2147483648 then return Int32.ofInt value else failure

namespace Key

/-- The wire form of a key. -/
def encode : Key → List UInt8
  | .path position =>
    encodeVariant "Path" (encodeArray (position.components.map fun component =>
      encodeInt component.toInt))
  | .number value => encodeVariant "Opaque" (encodeVariant "Number" (encodeNat value.toNat))
  | .text value => encodeVariant "Opaque" (encodeVariant "Text" (encodeText value))

/-- An opaque key. -/
def opaqueDecoder : Decoder Key :=
  Decoder.variant fun name =>
    match name with
    | "Number" => return .number (← wordDecoder)
    | "Text" => return .text (← Decoder.text)
    | _ => failure

/-- A key. -/
def decoder : Decoder Key :=
  Decoder.variant fun name =>
    match name with
    | "Path" => return .path ⟨← Decoder.array componentDecoder⟩
    | "Opaque" => opaqueDecoder
    | _ => failure

end Key

namespace TreeId

/-- The wire form of a tree identifier. -/
def encode (id : TreeId) : List UInt8 :=
  encodeNat id.value.toNat

/-- A tree identifier. -/
def decoder : Decoder TreeId := do
  return ⟨← wordDecoder⟩

end TreeId

namespace Reference

/-- The wire form of a reference. -/
def encode (reference : Reference) : List UInt8 :=
  encodeRecord [("key", reference.key.encode), ("tree", reference.tree.encode)]

/-- What is found of a reference. -/
structure Fields where
  tree : Option TreeId := none
  key : Option Key := none

/-- A field of a reference. -/
def fieldDecoder (name : String) (found : Fields) : Decoder Fields := do
  match name with
  | "tree" => return { found with tree := ← Decoder.once found.tree TreeId.decoder }
  | "key" => return { found with key := ← Decoder.once found.key Key.decoder }
  | _ =>
    Decoder.skip
    return found

/-- A reference. -/
def decoder : Decoder Reference := do
  let found ← Decoder.record fieldDecoder {}
  return ⟨← Decoder.required found.tree, ← Decoder.required found.key⟩

end Reference

namespace Payload

variable {C : Type} [WireContent C]

/-- The wire form of a payload. -/
def encode : Payload C → List UInt8
  | .content value => encodeVariant "Content" (WireContent.encode value)
  | .nodeReference reference => encodeVariant "NodeRef" reference.encode
  | .treeReference reference => encodeVariant "TreeRef" reference.encode

/-- A payload. -/
def decoder : Decoder (Payload C) :=
  Decoder.variant fun name =>
    match name with
    | "Content" => return .content (← WireContent.decoder)
    | "NodeRef" => return .nodeReference (← Reference.decoder)
    | "TreeRef" => return .treeReference (← Reference.decoder)
    | _ => failure

end Payload

/-- A node of a delta on the wire. -/
structure WireNode (C : Type) where
  key : Key
  parent : Option Key
  payload : Payload C

namespace WireNode

variable {C : Type} [WireContent C]

/-- The wire form of a parent. -/
def encodeParent : Option Key → List UInt8
  | none => encodeNull
  | some parent => parent.encode

/-- The wire form of a node. -/
def encode (node : WireNode C) : List UInt8 :=
  encodeRecord [("key", node.key.encode), ("parent", encodeParent node.parent),
    ("payload", node.payload.encode)]

/-- What is found of a node. -/
structure Fields (C : Type) where
  key : Option Key := none
  parent : Option (Option Key) := none
  payload : Option (Payload C) := none

/-- A field of a node. -/
def fieldDecoder (name : String) (found : Fields C) : Decoder (Fields C) := do
  match name with
  | "key" => return { found with key := ← Decoder.once found.key Key.decoder }
  | "parent" =>
    return { found with parent := ← Decoder.once found.parent (Decoder.optional Key.decoder) }
  | "payload" => return { found with payload := ← Decoder.once found.payload Payload.decoder }
  | _ =>
    Decoder.skip
    return found

/-- A node. A parent that is left out is none. -/
def decoder : Decoder (WireNode C) := do
  let found ← Decoder.record fieldDecoder {}
  let key ← Decoder.required found.key
  return ⟨key, found.parent.getD none, ← Decoder.required found.payload⟩

end WireNode

/-- A delta on the wire. -/
structure WireDelta (C : Type) where
  base : TreeId
  tree : TreeId
  nodes : List (WireNode C)

namespace WireDelta

variable {C : Type} [WireContent C]

/-- The wire form of a delta. -/
def encode (wire : WireDelta C) : List UInt8 :=
  encodeRecord [("base", wire.base.encode), ("tree", wire.tree.encode),
    ("nodes", encodeArray (wire.nodes.map WireNode.encode))]

/-- What is found of a delta. -/
structure Fields (C : Type) where
  base : Option TreeId := none
  tree : Option TreeId := none
  nodes : Option (List (WireNode C)) := none

/-- A field of a delta. -/
def fieldDecoder (name : String) (found : Fields C) : Decoder (Fields C) := do
  match name with
  | "base" => return { found with base := ← Decoder.once found.base TreeId.decoder }
  | "tree" => return { found with tree := ← Decoder.once found.tree TreeId.decoder }
  | "nodes" =>
    return { found with nodes := ← Decoder.once found.nodes (Decoder.array WireNode.decoder) }
  | _ =>
    Decoder.skip
    return found

/-- A delta. -/
def decoder : Decoder (WireDelta C) := do
  let found ← Decoder.record fieldDecoder {}
  let base ← Decoder.required found.base
  let tree ← Decoder.required found.tree
  return ⟨base, tree, ← Decoder.required found.nodes⟩

/-- The delta that bytes stand for. -/
def decode? (bytes : List UInt8) : Option (WireDelta C) :=
  Decoder.decode? decoder bytes

end WireDelta

end VersionedTrees
