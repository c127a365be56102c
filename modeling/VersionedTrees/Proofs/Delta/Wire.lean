import VersionedTrees.Delta.Wire
import VersionedTrees.Proofs.Delta.Verified
import VersionedTrees.Proofs.Delta.WireForm
import VersionedTrees.Proofs.Store.Building
import VersionedTrees.Proofs.Store.Rows

/-!
# Deltas survive the wire

A delta travels as the rows of its tree. The receiver builds the tree from the rows again: they come in
an order in which every node finds its parent, and no key comes twice. So what was sent is received,
with the same base, the same identifier and the same layout, if the keys are complete and the delta
passes the check (`Delta.result_decode`).
-/

namespace VersionedTrees

variable {C : Type}

/-! ## Reads that may fail on the wire -/

namespace WireRead

variable {α β : Type}

/-- A read succeeds with a value. -/
def Succeeds (read : WireRead α) (value : α) : Prop :=
  read.run.result = .ok (.ok value)

theorem succeeds_pure (value : α) : Succeeds (pure value) value := rfl

theorem Succeeds.bind {first : WireRead α} {next : α → WireRead β} {value : α} {result : β}
    (ok : Succeeds first value) (rest : Succeeds (next value) result) :
    Succeeds (first >>= next) result := by
  rw [Succeeds, ExceptT.run_bind, Read.result_bind_of_ok ok]
  exact rest

theorem succeeds_lift {read : Read α} {value : α} (ok : read.result = .ok value) :
    Succeeds (read : WireRead α) value :=
  Read.result_bind_of_ok ok

theorem succeeds_require {condition : Bool} (holds : condition = true) (fault : WireFault) :
    Succeeds (WireRead.require condition fault) () := by
  rw [holds]
  rfl

/-- A read succeeds with one value. -/
theorem Succeeds.unique {read : WireRead α} {value other : α} (first : Succeeds read value)
    (second : Succeeds read other) : value = other :=
  Except.ok.inj (Except.ok.inj (first.symm.trans second))

/-- A sequence has succeeded if both of its reads have. -/
theorem Succeeds.of_bind {first : WireRead α} {next : α → WireRead β} {result : β}
    (ok : Succeeds (first >>= next) result) :
    ∃ value, Succeeds first value ∧ Succeeds (next value) result := by
  rw [Succeeds, ExceptT.run_bind] at ok
  obtain ⟨outcome, told, rest⟩ := Read.result_bind_eq_ok ok
  cases outcome with
  | error fault => cases rest
  | ok value => exact ⟨value, told, rest⟩

theorem Succeeds.of_lift {read : Read α} {value : α} (ok : Succeeds (read : WireRead α) value) :
    read.result = .ok value := by
  obtain ⟨other, told, same⟩ := Read.result_bind_eq_ok ok
  cases same
  exact told

/-- A condition that is required holds after success. -/
theorem Succeeds.of_require {condition : Bool} {fault : WireFault}
    (ok : Succeeds (WireRead.require condition fault) ()) : condition = true := by
  cases condition with
  | true => rfl
  | false => cases ok

end WireRead

/-- A row as it travels. -/
def WireNode.ofRow (row : Layout.Row C) : WireNode C :=
  ⟨row.1, row.2.parent, row.2.payload⟩

namespace Delta

variable {delta : Delta C} {base : Tree C} {store : Store C} {layout : Layout C} {id : TreeId}
  {rows : List (Layout.Row C)} {key : Key}

/-! ## Sending -/

/-- Nodes that tell, key by key in pre-order, the parent and the payload of each node of a delta. -/
structure ListedAs (delta : Delta C) (nodes : List (WireNode C)) : Prop where
  keys : delta.tree.tree.keys.result = .ok (nodes.map (·.key))
  parent : ∀ node ∈ nodes, (delta.tree.tree.parent node.key).result = .ok node.parent
  payload : ∀ node ∈ nodes, (delta.tree.tree.payload node.key).result = .ok node.payload

/-- The delta as it travels has the rows of the tree. -/
def wire (delta : Delta C) : WireDelta C :=
  ⟨delta.base, delta.tree.id, delta.tree.rows.map WireNode.ofRow⟩

theorem listedAs_wire (wellFormed : delta.tree.WellFormed) : delta.ListedAs delta.wire.nodes where
  keys := by
    rw [wellFormed.result_keys, wire, List.map_map]
    rfl
  parent node inside := by
    obtain ⟨row, among, rfl⟩ := List.mem_map.mp inside
    rw [WireNode.ofRow, wellFormed.shows.parent, wellFormed.mem_rows_iff.mp among]
  payload node inside := by
    obtain ⟨row, among, rfl⟩ := List.mem_map.mp inside
    exact Buffer.result_payload_of_found
      (Buffer.result_node_base (wellFormed.mem_rows_iff.mp among))

/-- What is listed of a delta is what travels. -/
theorem ListedAs.result_toWire {nodes : List (WireNode C)} (listed : delta.ListedAs nodes) :
    delta.toWire.result = .ok ⟨delta.base, delta.tree.id, nodes⟩ := by
  have each : ∀ node ∈ nodes, (delta.wireNode node.key).result = .ok (id node) := by
    intro node inside
    rw [wireNode, Read.result_bind_of_ok (listed.payload node inside),
      Read.result_bind_of_ok (listed.parent node inside)]
    rfl
  have told : ((nodes.map (·.key)).mapM delta.wireNode).result = .ok nodes := by
    rw [List.mapM_map]
    exact (Read.result_mapM each).trans (congrArg Except.ok (List.map_id nodes))
  rw [toWire, Read.result_bind_of_ok listed.keys, Read.result_bind_of_ok told]
  rfl

/-- Every delta can be sent. -/
theorem result_encode [WireContent C] (wellFormed : delta.tree.WellFormed) :
    delta.encode.result = .ok delta.wire.encode := by
  rw [encode, Read.result_bind_of_ok (listedAs_wire wellFormed).result_toWire]
  rfl

/-! ## Receiving -/

theorem result_requireComplete (complete : key.Complete) :
    (requireComplete key).result = .ok () := by
  cases key with
  | path position =>
      have same : PathKey.ofComponents position.components = .ok position := if_pos complete
      rw [requireComplete, same]
      rfl
  | number value => rfl
  | text value => rfl

/-- A node with a new key is added where there is room. -/
theorem succeeds_addWireNode {row : Layout.Row C} (builds : store.Builds id layout)
    (complete : row.1.Complete) (new : layout row.1 = none) (room : layout.Room row.2.parent) :
    ∃ next, WireRead.Succeeds (addWireNode store (WireNode.ofRow row)) next ∧
      next.Builds id (layout.place row.1 row.2) := by
  obtain ⟨next, inserted, built⟩ := builds.insert new room row.2.payload
  have absent : (!store.contains row.1) = true := by
    rw [Store.contains_eq_false_iff.mpr (builds.layout_eq ▸ new)]
    rfl
  refine ⟨next, ?_, built⟩
  apply (WireRead.succeeds_lift (result_requireComplete complete)).bind
  apply (WireRead.succeeds_require absent _).bind
  rw [WireNode.ofRow, inserted]
  exact WireRead.succeeds_pure next

/-- Nodes that come in order are added one after the other. -/
theorem succeeds_foldlM_addWireNode (builds : store.Builds id layout)
    (complete : ∀ row ∈ rows, row.1.Complete) (fresh : layout.Fresh rows)
    (grows : layout.Grows rows) :
    ∃ next, WireRead.Succeeds ((rows.map WireNode.ofRow).foldlM addWireNode store) next ∧
      next.Builds id (layout.plant rows) := by
  induction rows generalizing store layout with
  | nil => exact ⟨store, WireRead.succeeds_pure store, builds⟩
  | cons row rows inductionHypothesis =>
      obtain ⟨new, fresh⟩ := Layout.fresh_cons_iff.mp fresh
      obtain ⟨room, grows⟩ := grows
      obtain ⟨middle, added, builds⟩ :=
        succeeds_addWireNode builds (complete row List.mem_cons_self) new room
      obtain ⟨next, others, builds⟩ := inductionHypothesis builds
        (fun other inside => complete other (List.mem_cons_of_mem _ inside)) fresh grows
      refine ⟨next, ?_, builds⟩
      rw [List.map_cons, List.foldlM_cons]
      exact added.bind others

/-- What was sent is received, if the keys are complete and the delta passes the check. -/
theorem result_decode [WireContent C] (wellFormed : delta.tree.WellFormed)
    (complete : delta.tree.CompleteKeys)
    (verified : (delta.verify base).result = .ok ())
    (short : delta.wire.encode.length < byteCapacity 8) :
    ∃ decoded, WireRead.Succeeds (decode delta.wire.encode base) decoded ∧
      decoded.base = delta.base ∧ decoded.tree.Builds delta.tree.id delta.tree.layout := by
  have fresh : Layout.Fresh (fun _ => none) delta.tree.rows :=
    Layout.fresh_empty_iff.mpr wellFormed.nodup_rows
  obtain ⟨tree, built, builds⟩ := succeeds_foldlM_addWireNode
    (Store.builds_empty delta.tree.id {})
    (fun row inside => complete row.1 ⟨row.2, wellFormed.mem_rows_iff.mp inside⟩) fresh
    wellFormed.grows_rows
  rw [wellFormed.plant_rows] at builds
  obtain ⟨made, references⟩ := result_verify_tree_iff.mp verified
  have verified' : (Delta.verify ⟨delta.base, tree⟩ base).result = .ok () := by
    apply result_verify_tree_iff.mpr
    rw [builds.layout_eq]
    exact ⟨made, references⟩
  have received : WireRead.Succeeds (ofWire delta.wire base) ⟨delta.base, tree⟩ := by
    apply (WireRead.succeeds_require (decide_eq_true made.symm) _).bind
    apply built.bind
    apply (WireRead.succeeds_lift verified').bind
    exact WireRead.succeeds_pure _
  refine ⟨⟨delta.base, tree⟩, ?_, rfl, builds⟩
  rw [decode, WireDelta.decode?_encode delta.wire short]
  apply received.bind
  apply (WireRead.succeeds_lift (Read.result_report _)).bind
  exact WireRead.succeeds_pure _

end Delta

end VersionedTrees
