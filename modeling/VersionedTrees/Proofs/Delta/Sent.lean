import VersionedTrees.Proofs.Delta.Wire
import VersionedTrees.Proofs.Store.Reachable

/-!
# What is sent is received

The bytes of a delta are the wire form of its base, of the identifier of its tree, and of one node for
each key in pre-order. A receiver with any tree that the delta passes the check against reads from
them a delta whose tree answers everything alike (`Delta.decode_encode`). The one assumption on sizes
is that the length of what is sent fits into 64 bits.
-/

namespace VersionedTrees

namespace Delta

variable {C : Type}

/-- A delta has the base, the identifier and all the answers of another one. -/
structure Restored (delta decoded : Delta C) : Prop where
  base_eq : decoded.base = delta.base
  id_eq : decoded.tree.id = delta.tree.id
  sameReads : decoded.tree.tree.SameReads delta.tree.tree

variable [WireContent C] {delta : Delta C} {base : Tree C}

/-- A delta whose tree comes from edits and whose keys are complete is sent as the wire form of its
nodes. Where it passes the check, the receiver reads the same delta from the bytes. -/
theorem decode_encode (fromEdits : delta.tree.Reachable) (complete : delta.tree.CompleteKeys)
    (verified : (delta.verify base).result = .ok ()) :
    ∃ nodes bytes, delta.ListedAs nodes ∧
      bytes = (WireDelta.mk delta.base delta.tree.id nodes).encode ∧
      delta.encode.result = .ok bytes ∧
      (bytes.length < byteCapacity 8 →
        WireDelta.decode? bytes = some ⟨delta.base, delta.tree.id, nodes⟩ ∧
        ∃ decoded, WireRead.Succeeds (decode bytes base) decoded ∧ delta.Restored decoded) := by
  have wellFormed := fromEdits.wellFormed
  refine ⟨delta.wire.nodes, delta.wire.encode, listedAs_wire wellFormed, rfl,
    result_encode wellFormed, fun short => ⟨WireDelta.decode?_encode delta.wire short, ?_⟩⟩
  obtain ⟨decoded, received, sameBase, builds⟩ := result_decode wellFormed complete verified short
  have shows := builds.wellFormed.shows
  rw [builds.layout_eq] at shows
  exact ⟨decoded, received, sameBase, builds.id_eq, shows.sameReads wellFormed.shows⟩

/-- A root below which stand a position with a caret, a text beyond the ASCII ones, and a number that
was given out. Two of the nodes refer into a base. -/
def variedEdits (content : C) : List (StoreEdit C) :=
  [.insert none (.exactly .root) (.content content),
    .insert (some .root) (.exactly (.path ⟨[4, -3]⟩))
      (.treeReference ⟨⟨1⟩, .number 18446744073709551615⟩),
    .insert (some .root) (.exactly (.text "ö")) (.nodeReference ⟨⟨1⟩, .text ""⟩),
    .insert (some (.text "ö")) (.automatic .last) (.content content)]

/-- The nodes that the varied ones refer to. -/
def referredEdits (content : C) : List (StoreEdit C) :=
  [.insert none (.exactly (.number 18446744073709551615)) (.content content),
    .insert (some (.number 18446744073709551615)) (.exactly (.text "")) (.content content)]

/-- Deltas with all kinds of keys and payloads come through, with texts and with bytes as content. -/
theorem decode_encode_varied :
    let texts : Delta String := ⟨⟨1⟩, Store.ofEdits ⟨2⟩ (variedEdits "é")⟩
    let octets : Delta (List UInt8) := ⟨⟨1⟩, Store.ofEdits ⟨2⟩ (variedEdits [0, 255])⟩
    let base := (Store.ofEdits ⟨1⟩ (referredEdits "")).tree
    let base' := (Store.ofEdits ⟨1⟩ (referredEdits [])).tree
    (texts.tree.Reachable ∧ texts.tree.CompleteKeys ∧ (texts.verify base).result = .ok () ∧
      ∃ bytes decoded, texts.encode.result = .ok bytes ∧ bytes.length < 300 ∧
        WireRead.Succeeds (decode bytes base) decoded ∧ texts.Restored decoded) ∧
    octets.tree.Reachable ∧ octets.tree.CompleteKeys ∧ (octets.verify base').result = .ok () ∧
      ∃ bytes decoded, octets.encode.result = .ok bytes ∧ bytes.length < 300 ∧
        WireRead.Succeeds (decode bytes base') decoded ∧ octets.Restored decoded := by
  intro texts octets base base'
  constructor
  · have fromEdits : texts.tree.Reachable := Store.reachable_ofEdits _ _
    have checked : ∀ key ∈ texts.tree.keys, key.Complete := by decide +kernel
    have complete : texts.tree.CompleteKeys := fun key holds =>
      checked key (Store.mem_keys_iff.mpr holds)
    have verified : (texts.verify base).result = .ok () := by decide +kernel
    obtain ⟨nodes, bytes, -, -, sent, reads⟩ := decode_encode fromEdits complete verified
    have length : texts.encode.result.map List.length = .ok 286 := by decide +kernel
    rw [sent] at length
    have length : bytes.length = 286 := Except.ok.inj length
    have short : bytes.length < byteCapacity 8 := by
      rw [length]
      decide
    obtain ⟨-, decoded, received, restored⟩ := reads short
    exact ⟨fromEdits, complete, verified, bytes, decoded, sent, by omega, received, restored⟩
  · have fromEdits : octets.tree.Reachable := Store.reachable_ofEdits _ _
    have checked : ∀ key ∈ octets.tree.keys, key.Complete := by decide +kernel
    have complete : octets.tree.CompleteKeys := fun key holds =>
      checked key (Store.mem_keys_iff.mpr holds)
    have verified : (octets.verify base').result = .ok () := by decide +kernel
    obtain ⟨nodes, bytes, -, -, sent, reads⟩ := decode_encode fromEdits complete verified
    have length : octets.encode.result.map List.length = .ok 288 := by decide +kernel
    rw [sent] at length
    have length : bytes.length = 288 := Except.ok.inj length
    have short : bytes.length < byteCapacity 8 := by
      rw [length]
      decide
    obtain ⟨-, decoded, received, restored⟩ := reads short
    exact ⟨fromEdits, complete, verified, bytes, decoded, sent, by omega, received, restored⟩

/-- The bytes of a delta with one node. Fields with shorter names come first. -/
example : (Delta.encode ⟨⟨1⟩, Store.ofEdits ⟨2⟩
      [.insert none (.exactly (.number 300)) (.content "hi")]⟩).result =
    .ok (0xa3 :: 0x64 :: textBytes "base" ++ 0x01 :: 0x64 :: textBytes "tree" ++ 0x02 ::
      0x65 :: textBytes "nodes" ++ 0x81 ::
      0xa3 :: 0x63 :: textBytes "key" ++ 0xa1 :: 0x66 :: textBytes "Opaque" ++
        0xa1 :: 0x66 :: textBytes "Number" ++ 0x19 :: 0x01 :: 0x2c ::
      0x66 :: textBytes "parent" ++ 0xf6 ::
      0x67 :: textBytes "payload" ++ 0xa1 :: 0x67 :: textBytes "Content" ++
        0x62 :: textBytes "hi") := by
  decide +kernel

end Delta

end VersionedTrees
