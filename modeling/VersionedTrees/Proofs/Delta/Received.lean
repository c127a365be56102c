import VersionedTrees.Proofs.Delta.Wire
import VersionedTrees.Proofs.Store.Runs

/-!
# What a receiver accepts

Bytes may come from anywhere. They may list a key twice, a second root, a child before its parent, a
position that stops in the middle of a label, or a reference to nowhere, and an insertion under a key
that is there already would replace the node and move it. A receiver accepts none of this:
`Delta.Received` is what holds of every delta that is read, from whatever bytes and against whatever
base (`Delta.received_of_decode`).
-/

namespace VersionedTrees

variable {C : Type}

/-- The row of a node that travels. -/
def WireNode.toRow (node : WireNode C) : Layout.Row C :=
  ⟨node.key, node.parent, node.payload⟩

namespace Delta

variable {store next : Store C} {layout : Layout C} {id : TreeId} {node : WireNode C}
  {nodes : List (WireNode C)} {key : Key}

theorem complete_of_requireComplete (ok : (requireComplete key).result = .ok ()) :
    key.Complete := by
  cases key with
  | path position =>
      by_contra stops
      have fault : PathKey.ofComponents position.components =
          .error (.unclosedLabel position.components) := if_neg stops
      rw [requireComplete, fault] at ok
      cases ok
  | number value => trivial
  | text value => trivial

/-- A node that was added has a complete and new key, and now stands where it is listed. -/
theorem builds_of_addWireNode (builds : store.Builds id layout)
    (ok : WireRead.Succeeds (addWireNode store node) next) :
    node.key.Complete ∧ layout node.key = none ∧
      next.Builds id (layout.place node.key ⟨node.parent, node.payload⟩) := by
  obtain ⟨⟨⟩, required, rest⟩ := WireRead.Succeeds.of_bind ok
  have complete := complete_of_requireComplete (WireRead.Succeeds.of_lift required)
  obtain ⟨⟨⟩, absent, rest⟩ := WireRead.Succeeds.of_bind rest
  have new : layout node.key = none := by
    rw [← builds.layout_eq, ← Store.contains_eq_false_iff]
    simpa using WireRead.Succeeds.of_require absent
  have inserted : ∃ told, (store.insert node.parent (.exactly node.key) node.payload).1 =
      .ok told := by
    rcases ended : store.insert node.parent (.exactly node.key) node.payload with
      ⟨error | told, other⟩
    · rw [ended] at rest
      cases rest
    · exact ⟨told, rfl⟩
  obtain ⟨told, inserted⟩ := inserted
  obtain ⟨other, added, built⟩ : ∃ other,
      WireRead.Succeeds (addWireNode store (WireNode.ofRow node.toRow)) other ∧
        other.Builds id (layout.place node.toRow.1 node.toRow.2) :=
    succeeds_addWireNode builds complete new (builds.room_of_insert new inserted)
  obtain rfl := ok.unique added
  exact ⟨complete, new, built⟩

/-- Nodes that were added one after the other have complete keys that differ and are new, and all of
them stand where they are listed. -/
theorem builds_of_foldlM_addWireNode (builds : store.Builds id layout)
    (ok : WireRead.Succeeds (nodes.foldlM addWireNode store) next) :
    (∀ node ∈ nodes, node.key.Complete) ∧ layout.Fresh (nodes.map WireNode.toRow) ∧
      next.Builds id (layout.plant (nodes.map WireNode.toRow)) := by
  induction nodes generalizing store layout with
  | nil =>
      obtain rfl := ok.unique (WireRead.succeeds_pure store)
      exact ⟨fun node inside => absurd inside List.not_mem_nil, Layout.fresh_nil _, builds⟩
  | cons node nodes inductionHypothesis =>
      rw [List.foldlM_cons] at ok
      obtain ⟨middle, added, rest⟩ := ok.of_bind
      obtain ⟨complete, new, builds⟩ := builds_of_addWireNode builds added
      obtain ⟨complete', fresh, builds⟩ := inductionHypothesis builds rest
      exact ⟨List.forall_mem_cons.mpr ⟨complete, complete'⟩,
        Layout.fresh_cons_iff.mpr ⟨new, fresh⟩, builds⟩

/-- What a receiver with a base accepts as the delta that was listed: a tree whose nodes are the
listed ones, each under a key of its own, and whose references point into the base. -/
structure Received (wire : WireDelta C) (base : Tree C) (delta : Delta C) : Prop where
  listedBase : wire.base = base.id
  base_eq : delta.base = base.id
  id_eq : delta.tree.id = wire.tree
  singleRooted : delta.tree.SingleRooted
  nodup : (wire.nodes.map (·.key)).Nodup
  mem_nodes_iff : ∀ key parent payload, ⟨key, parent, payload⟩ ∈ wire.nodes ↔
    ∃ slot, delta.tree.slot? key = some slot ∧ slot.parent = parent ∧ slot.payload = payload
  complete : delta.tree.CompleteKeys
  pointsInto : ∀ key payload reference, delta.tree.payload? key = some payload →
    payload.reference? = some reference → reference.PointsInto base

theorem exists_slot_iff {parent : Option Key} {payload : Payload C} :
    (∃ slot, store.slot? key = some slot ∧ slot.parent = parent ∧ slot.payload = payload) ↔
      store.layout key = some ⟨parent, payload⟩ := by
  simp [Store.layout]

/-- What was built from the listed nodes and passes the check is accepted rightly. -/
theorem received_of_builds {wire : WireDelta C} {base : Tree C} {tree : Store C}
    (made : wire.base = base.id) (complete : ∀ node ∈ wire.nodes, node.key.Complete)
    (fresh : Layout.Fresh (fun _ => none) (wire.nodes.map WireNode.toRow))
    (builds : tree.Builds wire.tree (Layout.plant (fun _ => none) (wire.nodes.map WireNode.toRow)))
    (verified : (verify ⟨wire.base, tree⟩ base).result = .ok ()) :
    Received wire base ⟨wire.base, tree⟩ := by
  have stands : ∀ key parent payload, ⟨key, parent, payload⟩ ∈ wire.nodes ↔
      tree.layout key = some ⟨parent, payload⟩ := by
    intro key parent payload
    rw [builds.layout_eq, Layout.plant_empty_eq_some_iff fresh, List.mem_map]
    constructor
    · intro inside
      exact ⟨_, inside, rfl⟩
    · rintro ⟨node, inside, same⟩
      cases same
      exact inside
  obtain ⟨-, references⟩ := result_verify_tree_iff.mp verified
  have nodup := Layout.fresh_empty_iff.mp fresh
  rw [List.map_map] at nodup
  exact {
    listedBase := made
    base_eq := made
    id_eq := builds.id_eq
    singleRooted := builds.wellFormed.singleRooted
    nodup := nodup
    mem_nodes_iff := fun key parent payload =>
      (stands key parent payload).trans exists_slot_iff.symm
    complete := by
      rintro key ⟨⟨parent, payload⟩, found⟩
      exact complete _ ((stands key parent payload).mpr found)
    pointsInto := by
      intro key payload reference found points
      rw [Store.payload?_eq, Option.map_eq_some_iff] at found
      obtain ⟨standing, found, rfl⟩ := found
      exact references key standing found reference points }

/-- A delta that was read, from whatever bytes and against whatever base, is the delta that the bytes
list, in a tree with one root and with references into the base. -/
theorem received_of_decode [WireContent C] {bytes : List UInt8} {base : Tree C} {delta : Delta C}
    (ok : WireRead.Succeeds (decode bytes base) delta) :
    ∃ wire, WireDelta.decode? bytes = some wire ∧ Received wire base delta := by
  rw [decode] at ok
  cases read : (WireDelta.decode? bytes : Option (WireDelta C)) with
  | none =>
      rw [read] at ok
      cases ok
  | some wire =>
      rw [read] at ok
      refine ⟨wire, rfl, ?_⟩
      obtain ⟨other, received, rest⟩ := WireRead.Succeeds.of_bind ok
      obtain ⟨⟨⟩, -, rest⟩ := WireRead.Succeeds.of_bind rest
      obtain rfl := rest.unique (WireRead.succeeds_pure other)
      obtain ⟨⟨⟩, made, received⟩ := WireRead.Succeeds.of_bind received
      obtain ⟨tree, built, received⟩ := WireRead.Succeeds.of_bind received
      obtain ⟨⟨⟩, verified, received⟩ := WireRead.Succeeds.of_bind received
      obtain rfl := received.unique (WireRead.succeeds_pure _)
      obtain ⟨complete, fresh, builds⟩ :=
        builds_of_foldlM_addWireNode (Store.builds_empty wire.tree {}) built
      exact received_of_builds (of_decide_eq_true made.of_require) complete fresh builds
        verified.of_lift

/-- A delta into a chain, as it is listed on the wire. -/
def listedDelta : WireDelta String :=
  ⟨⟨1⟩, ⟨2⟩, [⟨.root, none, .content "root"⟩,
    ⟨.path ⟨[2, -1]⟩, some .root, .treeReference ⟨⟨1⟩, .number 2⟩⟩,
    ⟨.text "ö", some .root, .nodeReference ⟨⟨1⟩, .number 3⟩⟩]⟩

/-- The bytes that list the delta are accepted by a receiver that has the chain. -/
theorem received_of_decode_listed :
    ∃ delta wire, WireRead.Succeeds (decode listedDelta.encode Store.chain.tree) delta ∧
      WireDelta.decode? listedDelta.encode = some wire ∧ Received wire Store.chain.tree delta := by
  have succeeds : ((decode listedDelta.encode Store.chain.tree).run.result.map
      Except.isOk) = .ok true := by decide +kernel
  cases told : (decode listedDelta.encode Store.chain.tree).run.result with
  | error error =>
      rw [told] at succeeds
      cases succeeds
  | ok outcome =>
      cases outcome with
      | error fault =>
          rw [told] at succeeds
          cases succeeds
      | ok delta =>
          obtain ⟨wire, read, received⟩ := received_of_decode told
          exact ⟨delta, wire, told, read, received⟩

/-- A second entry for a key is a fault, even if it says the same. -/
example : ((decode (C := String) (WireDelta.mk ⟨1⟩ ⟨2⟩ [⟨.root, none, .content "root"⟩,
      ⟨.root, none, .content "root"⟩]).encode Store.chain.tree).run.result.map fun outcome =>
        outcome.map fun _ => ()) = .ok (.error (.repeatedKey .root)) := by
  decide +kernel

end Delta

end VersionedTrees
