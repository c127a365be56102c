import VersionedTrees.Delta.WireForm
import VersionedTrees.Proofs.Cbor.Records

/-!
# Deltas on the wire are read back

Keys, references, payloads, nodes and deltas read back what was written, provided that the bytes are
not too many for a head, and that the decoder may go down as many levels as the data has. A delta has
seven (`WireDelta.decode?_encode`).
-/

namespace VersionedTrees

open Cbor Decoder

/-! ## Numbers -/

theorem reads_word (value : UInt64) (levels : Nat) :
    wordDecoder.Reads levels (encodeNat value.toNat) value := by
  have number :=
    (reads_nat levels (.inr (.inr (.inr rfl))) value.toNat_lt).map UInt64.ofNat
  rwa [UInt64.ofNat_toNat] at number

/-- A component fits into four bytes. -/
theorem intFits_component (component : Int32) : IntFits 4 component.toInt := by
  have capacity : byteCapacity 4 = 4294967296 := rfl
  have above := component.toInt_lt
  have below := component.le_toInt
  cases same : component.toInt with
  | ofNat value =>
      rw [same, Int.ofNat_eq_natCast] at above
      rw [IntFits, capacity]
      omega
  | negSucc value =>
      rw [same] at below
      rw [IntFits, capacity]
      omega

theorem reads_component (component : Int32) (levels : Nat) :
    componentDecoder.Reads levels (encodeInt component.toInt) component := by
  intro rest
  have number : (Decoder.int 4).Reads levels (encodeInt component.toInt) component.toInt :=
    reads_int (.inr (.inr (.inl rfl))) (intFits_component component)
  have range : -2147483648 ≤ component.toInt ∧ component.toInt < 2147483648 :=
    ⟨component.le_toInt, component.toInt_lt⟩
  rw [componentDecoder, run_bind, number, Option.bind_some, if_pos range, run_pure,
    Int32.ofInt_toInt]

theorem length_encodeInt_pos (value : Int) : 0 < (encodeInt value).length := by
  cases value <;> exact length_head_pos _ _

/-! ## Keys and references -/

theorem Key.reads (key : Key) (levels : Nat) (short : key.encode.length < byteCapacity 8) :
    Key.decoder.Reads (levels + 2) key.encode key := by
  cases key with
  | path position =>
      have components := length_le_length_encodeVariant "Path"
        (encodeArray (position.components.map fun component => encodeInt component.toInt))
      apply reads_variant (by decide)
      exact (reads_array_of_short (fun component _ => reads_component component levels)
        (fun component => length_encodeInt_pos component.toInt)
        (Nat.lt_of_le_of_lt components short)).map fun components => Key.path ⟨components⟩
  | number value =>
      apply reads_variant (by decide)
      apply reads_variant (by decide)
      exact (reads_word value levels).map Key.number
  | text value =>
      have outer := length_le_length_encodeVariant "Opaque" (encodeVariant "Text" (encodeText value))
      have inner := length_le_length_encodeVariant "Text" (encodeText value)
      apply reads_variant (by decide)
      apply reads_variant (by decide)
      exact (reads_text value levels
        (Nat.lt_of_le_of_lt (Nat.le_trans inner outer) short)).map Key.text

/-- A key starts with the head of a map with one entry. -/
theorem Key.exists_encode_eq_cons (key : Key) :
    ∃ rest, key.encode = MajorType.map.first 1 :: rest := by
  cases key <;> exact ⟨_, encodeVariant_eq_cons _ _⟩

theorem TreeId.reads (id : TreeId) (levels : Nat) : TreeId.decoder.Reads levels id.encode id :=
  (reads_word id.value levels).map TreeId.mk

/-- A reference is read back three levels down. -/
theorem Reference.reads (reference : Reference) (levels : Nat)
    (short : reference.encode.length < byteCapacity 8) :
    Reference.decoder.Reads (levels + 3) reference.encode reference := by
  have within : reference.key.encode.length ≤ reference.encode.length :=
    length_le_length_encodeRecord List.mem_cons_self
  have key : (fieldDecoder "key" {}).Reads (levels + 2) reference.key.encode
      { key := some reference.key } :=
    (reference.key.reads levels (Nat.lt_of_le_of_lt within short)).once.map
      fun key => ({ key } : Fields)
  have tree : (fieldDecoder "tree" { key := some reference.key }).Reads (levels + 2)
      reference.tree.encode ⟨some reference.tree, some reference.key⟩ :=
    (reference.tree.reads (levels + 2)).once.map
      fun tree => (⟨tree, some reference.key⟩ : Fields)
  have fields : (Decoder.record fieldDecoder {}).Reads (levels + 3) reference.encode
      ⟨some reference.tree, some reference.key⟩ := by
    apply reads_record
    · exact (show 2 < byteCapacity 8 by decide)
    · apply reads_fields_cons (show (encodeText "key").length < byteCapacity 8 by decide) key
      apply reads_fields_cons (show (encodeText "tree").length < byteCapacity 8 by decide) tree
      exact reads_fields_nil _ _
  intro rest
  rw [Reference.decoder, run_bind, fields, Option.bind_some]
  rfl

/-! ## Payloads and nodes -/

section Content

variable {C : Type} [WireContent C]

/-- A payload is read back four levels down. -/
theorem Payload.reads (payload : Payload C) (levels : Nat)
    (short : payload.encode.length < byteCapacity 8) :
    Payload.decoder.Reads (levels + 4) payload.encode payload := by
  cases payload with
  | content value =>
      have within := length_le_length_encodeVariant "Content" (WireContent.encode value)
      apply reads_variant (by decide)
      exact (WireContent.reads value (levels + 2)
        (Nat.lt_of_le_of_lt within short)).map Payload.content
  | nodeReference reference =>
      have within := length_le_length_encodeVariant "NodeRef" reference.encode
      apply reads_variant (by decide)
      exact (reference.reads levels (Nat.lt_of_le_of_lt within short)).map Payload.nodeReference
  | treeReference reference =>
      have within := length_le_length_encodeVariant "TreeRef" reference.encode
      apply reads_variant (by decide)
      exact (reference.reads levels (Nat.lt_of_le_of_lt within short)).map Payload.treeReference

namespace WireNode

theorem reads_parent (parent : Option Key) (levels : Nat)
    (short : (encodeParent parent).length < byteCapacity 8) :
    (Decoder.optional Key.decoder).Reads (levels + 3) (encodeParent parent) parent := by
  cases parent with
  | none => exact reads_optional_none _ _
  | some key =>
      have reads := key.reads levels short
      obtain ⟨rest, written⟩ := key.exists_encode_eq_cons
      rw [encodeParent]
      rw [written] at reads ⊢
      exact reads.optional (by decide)

/-- A node is read back five levels down. -/
theorem reads (node : WireNode C) (levels : Nat) (short : node.encode.length < byteCapacity 8) :
    WireNode.decoder.Reads (levels + 5) node.encode node := by
  have keyWithin : node.key.encode.length ≤ node.encode.length :=
    length_le_length_encodeRecord List.mem_cons_self
  have parentWithin : (encodeParent node.parent).length ≤ node.encode.length :=
    length_le_length_encodeRecord (List.mem_cons_of_mem _ List.mem_cons_self)
  have payloadWithin : node.payload.encode.length ≤ node.encode.length :=
    length_le_length_encodeRecord
      (List.mem_cons_of_mem _ (List.mem_cons_of_mem _ List.mem_cons_self))
  have key : (fieldDecoder "key" {}).Reads (levels + 4) node.key.encode
      ({ key := some node.key } : Fields C) :=
    (node.key.reads (levels + 2) (Nat.lt_of_le_of_lt keyWithin short)).once.map
      fun key => ({ key } : Fields C)
  have parent : (fieldDecoder "parent" { key := some node.key }).Reads (levels + 4)
      (encodeParent node.parent) ({ key := some node.key, parent := some node.parent } : Fields C) :=
    (reads_parent node.parent (levels + 1) (Nat.lt_of_le_of_lt parentWithin short)).once.map
      fun parent => ({ key := some node.key, parent } : Fields C)
  have payload : (fieldDecoder "payload" { key := some node.key, parent := some node.parent }).Reads
      (levels + 4) node.payload.encode
      (⟨some node.key, some node.parent, some node.payload⟩ : Fields C) :=
    (node.payload.reads levels (Nat.lt_of_le_of_lt payloadWithin short)).once.map
      fun payload => (⟨some node.key, some node.parent, payload⟩ : Fields C)
  have fields : (Decoder.record fieldDecoder {}).Reads (levels + 5) node.encode
      (⟨some node.key, some node.parent, some node.payload⟩ : Fields C) := by
    apply reads_record
    · exact (show 3 < byteCapacity 8 by decide)
    · apply reads_fields_cons (show (encodeText "key").length < byteCapacity 8 by decide) key
      apply reads_fields_cons (show (encodeText "parent").length < byteCapacity 8 by decide) parent
      apply reads_fields_cons (show (encodeText "payload").length < byteCapacity 8 by decide) payload
      exact reads_fields_nil _ _
  intro rest
  rw [WireNode.decoder, run_bind, fields, Option.bind_some]
  rfl

theorem length_encode_pos (node : WireNode C) : 0 < node.encode.length := by
  have first := length_head_pos .map 3
  rw [encode, encodeRecord, List.length_append]
  exact Nat.add_pos_left first _

end WireNode

/-! ## Deltas -/

namespace WireDelta

/-- A delta is read back seven levels down. -/
theorem reads (wire : WireDelta C) (levels : Nat) (short : wire.encode.length < byteCapacity 8) :
    WireDelta.decoder.Reads (levels + 7) wire.encode wire := by
  have nodesWithin : (encodeArray (wire.nodes.map WireNode.encode)).length ≤ wire.encode.length :=
    length_le_length_encodeRecord
      (List.mem_cons_of_mem _ (List.mem_cons_of_mem _ List.mem_cons_self))
  have nodesShort := Nat.lt_of_le_of_lt nodesWithin short
  have back : ∀ node ∈ wire.nodes, WireNode.decoder.Reads (levels + 5) node.encode node := by
    intro node inside
    have within : node.encode.length ≤ (encodeArray (wire.nodes.map WireNode.encode)).length :=
      length_le_length_encodeArray_of_mem (List.mem_map_of_mem inside)
    exact node.reads levels (Nat.lt_of_le_of_lt within nodesShort)
  have base : (fieldDecoder "base" {}).Reads (levels + 6) wire.base.encode
      ({ base := some wire.base } : Fields C) :=
    (wire.base.reads (levels + 6)).once.map fun base => ({ base } : Fields C)
  have tree : (fieldDecoder "tree" { base := some wire.base }).Reads (levels + 6)
      wire.tree.encode ({ base := some wire.base, tree := some wire.tree } : Fields C) :=
    (wire.tree.reads (levels + 6)).once.map
      fun tree => ({ base := some wire.base, tree } : Fields C)
  have nodes : (fieldDecoder "nodes" { base := some wire.base, tree := some wire.tree }).Reads
      (levels + 6) (encodeArray (wire.nodes.map WireNode.encode))
      (⟨some wire.base, some wire.tree, some wire.nodes⟩ : Fields C) :=
    (reads_array_of_short back WireNode.length_encode_pos nodesShort).once.map
      fun nodes => (⟨some wire.base, some wire.tree, nodes⟩ : Fields C)
  have fields : (Decoder.record fieldDecoder {}).Reads (levels + 7) wire.encode
      (⟨some wire.base, some wire.tree, some wire.nodes⟩ : Fields C) := by
    apply reads_record
    · exact (show 3 < byteCapacity 8 by decide)
    · apply reads_fields_cons (show (encodeText "base").length < byteCapacity 8 by decide) base
      apply reads_fields_cons (show (encodeText "tree").length < byteCapacity 8 by decide) tree
      apply reads_fields_cons (show (encodeText "nodes").length < byteCapacity 8 by decide) nodes
      exact reads_fields_nil _ _
  intro rest
  rw [WireDelta.decoder, run_bind, fields, Option.bind_some]
  rfl

/-- The bytes of a delta stand for it. -/
theorem decode?_encode (wire : WireDelta C) (short : wire.encode.length < byteCapacity 8) :
    decode? wire.encode = some wire := by
  have all := wire.reads 249 short []
  rw [List.append_nil] at all
  rw [decode?, Decoder.decode?, show deepest = 249 + 7 from rfl, all]

end WireDelta

end Content

end VersionedTrees
