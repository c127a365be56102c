import VersionedTrees.Proofs.Effect
import VersionedTrees.View.Merged

/-!
# Reading a merged view

A merged view answers from single reads of its two trees. The lemmas here go with its functions one by
one: each tells what a function answers once the reads that it makes have been answered, for any two
trees, any key map, and any trap.
-/

namespace VersionedTrees

variable {C : Type}

namespace Merged

variable {view : Merged C} {key other : Key} {payload : Payload C} {reference : Reference}
  {value : C}

theorem result_trapped {α : Type} {read : Read (Option α)} {value : Option α}
    (ok : read.result = .ok value) : (view.trapped read).result = .ok value := by
  rw [trapped]
  split
  · rename_i failed _
    rw [ok] at failed
    cases failed
  · exact ok

/-- Without a trap nothing is trapped. -/
theorem trapped_of_none {α : Type} (untrapped : view.trap = none) (read : Read (Option α)) :
    view.trapped read = read := by
  rw [trapped, untrapped]
  split
  · rename_i same
    cases same
  · rfl

/-- A trap only takes answers away. -/
theorem result_of_trapped {α : Type} {read : Read (Option α)} {value : α}
    (ok : (view.trapped read).result = .ok (some value)) : read.result = .ok (some value) := by
  rw [trapped] at ok
  split at ok
  · cases ok
  · exact ok

/-- A handle of the same generation is not stale. -/
theorem result_check_of_eq {handle : Handle} (same : handle.generation = view.generation) :
    (view.check handle).result = .ok () := by
  rw [check, Read.result_require, same]
  simp

/-- A handle that the view has just given is not stale. -/
theorem result_check (view : Merged C) (key : Key) (side : Side) :
    (view.check (view.handle key side)).result = .ok () :=
  result_check_of_eq rfl

/-! ## Where a key is read from -/

/-- A reference to a node of the back is followed. -/
theorem result_backingTarget (same : reference.tree = view.back.id)
    (contains : (view.back.contains reference.key).result = .ok true) :
    (view.backingTarget reference).result = .ok reference.key := by
  rw [backingTarget,
    Read.result_bind_of_ok (Read.result_require_of_true (decide_eq_true same)),
    Read.result_bind_of_ok contains]
  rfl

/-- A front node that is no tree-reference is read from the front. -/
theorem result_locate_of_plain (node : (view.front.node key).result = .ok (some ⟨other, payload⟩))
    (plain : payload.isTreeReference = false) : (view.locate key).result = .ok (some .front) := by
  rw [locate, Read.result_bind_of_ok node]
  cases payload with
  | content value => rfl
  | nodeReference reference => rfl
  | treeReference reference => cases plain

/-- A front tree-reference is read from the back, under the key of its target. -/
theorem result_locate_of_treeReference
    (node : (view.front.node key).result = .ok (some ⟨other, .treeReference reference⟩))
    (same : reference.tree = view.back.id)
    (contains : (view.back.contains reference.key).result = .ok true) :
    (view.locate key).result = .ok (some (.back reference.key)) := by
  rw [locate, Read.result_bind_of_ok node]
  exact Read.result_bind_of_ok (result_backingTarget same contains)

/-- A key that the front does not have is read from the back, unless it is hidden. -/
theorem result_locate_of_absent (node : (view.front.node key).result = .ok none)
    (paired : view.keys.back? key = some other) (shown : view.hidden.contains other = false)
    (contains : (view.back.contains other).result = .ok true) :
    (view.locate key).result = .ok (some (.back other)) := by
  rw [locate, Read.result_bind_of_ok node]
  simp only [paired, shown, Bool.false_eq_true, if_false]
  rw [Read.result_bind_of_ok contains]
  rfl

theorem result_get {side : Option Side} (located : (view.locate key).result = .ok side) :
    (view.get key).result = .ok (side.map (view.handle key)) :=
  Read.result_bind_of_ok (result_trapped located)

theorem result_require {side : Side} (located : (view.locate key).result = .ok (some side)) :
    (view.require key).result = .ok (view.handle key side) :=
  Read.result_bind_of_ok (result_get located)

/-! ## Content -/

theorem result_frontContent_of_content
    (read : (view.front.payload key).result = .ok (.content value)) :
    (view.frontContent key).result = .ok (some value) := by
  rw [frontContent, Read.result_bind_of_ok read]
  rfl

/-- A node-reference of the front lends the content of its target. -/
theorem result_frontContent_of_nodeReference
    (read : (view.front.payload key).result = .ok (.nodeReference reference))
    (same : reference.tree = view.back.id)
    (contains : (view.back.contains reference.key).result = .ok true)
    (target : (view.back.node reference.key).result = .ok (some ⟨other, .content value⟩)) :
    (view.frontContent key).result = .ok (some value) := by
  rw [frontContent, Read.result_bind_of_ok read]
  refine (Read.result_bind_of_ok (result_backingTarget same contains)).trans ?_
  exact Read.result_bind_of_ok target

theorem result_backContent (read : (view.back.payload key).result = .ok (.content value)) :
    (view.backContent key).result = .ok (some value) := by
  rw [backContent, Read.result_bind_of_ok read]
  rfl

theorem result_materialize_of_front (read : (view.frontContent key).result = .ok (some value)) :
    (view.materialize (view.handle key .front)).result = .ok (some ⟨key, .content value⟩) := by
  have content : (view.content (view.handle key .front)).result = .ok (some value) :=
    (Read.result_bind_of_ok (view.result_check key .front)).trans (result_trapped read)
  exact Read.result_bind_of_ok content

theorem result_materialize_of_back (read : (view.backContent other).result = .ok (some value)) :
    (view.materialize (view.handle key (.back other))).result =
      .ok (some ⟨key, .content value⟩) := by
  have content : (view.content (view.handle key (.back other))).result = .ok (some value) :=
    (Read.result_bind_of_ok (view.result_check key (.back other))).trans (result_trapped read)
  exact Read.result_bind_of_ok content

theorem result_node {side : Side} {node : Option (Node C)}
    (located : (view.locate key).result = .ok (some side))
    (read : (view.materialize (view.handle key side)).result = .ok node) :
    (view.tree.node key).result = .ok node :=
  (Read.result_bind_of_ok (result_get located)).trans read

theorem result_node_of_absent (located : (view.locate key).result = .ok none) :
    (view.tree.node key).result = .ok none :=
  Read.result_bind_of_ok (result_get located)

/-- The view contains the keys that it locates. -/
theorem result_contains {side : Option Side} (located : (view.locate key).result = .ok side) :
    (view.tree.contains key).result = .ok side.isSome := by
  refine (Read.result_bind_of_ok (result_get located)).trans ?_
  rw [Option.isSome_map]
  rfl

/-- The root is the front node under the front's root key. -/
theorem result_rootNode {root : Key} (found : view.front.rootKey.result = .ok (some root)) :
    view.rootNode.result = (view.tree.node root).result := by
  have got : view.getRoot.result = (view.get root).result := Read.result_bind_of_ok found
  change (view.getRoot >>= _).result = (view.get root >>= _).result
  rw [Read.result_bind, Read.result_bind, got]

theorem result_rootKey {root : Key} {node : Node C}
    (found : view.front.rootKey.result = .ok (some root))
    (read : (view.tree.node root).result = .ok (some node)) :
    view.tree.rootKey.result = .ok (some node.key) :=
  Read.result_bind_of_ok ((result_rootNode found).trans read)

/-! ## Children -/

/-- Front keys that can be located are all shown. -/
theorem result_frontChildren {keys : List Key}
    (located : ∀ key ∈ keys, ∃ side, (view.locate key).result = .ok (some side)) :
    ∃ handles, (view.frontChildren keys).result = .ok handles ∧ handles.map (·.key) = keys := by
  induction keys with
  | nil => exact ⟨[], rfl, rfl⟩
  | cons key keys inductionHypothesis =>
      obtain ⟨side, found⟩ := located key List.mem_cons_self
      obtain ⟨handles, read, same⟩ := inductionHypothesis
        fun other inside => located other (List.mem_cons_of_mem _ inside)
      refine ⟨view.handle key side :: handles, ?_, by rw [List.map_cons, same]; rfl⟩
      rw [frontChildren, Read.result_bind_of_ok (result_trapped found),
        Read.result_bind_of_ok read]
      rfl

/-- The children of a node that is read from the front are its front children, if all of them can be
located. -/
theorem result_children_of_front {keys : List Key}
    (found : (view.locate key).result = .ok (some .front))
    (read : (view.front.children key).result = .ok keys)
    (located : ∀ key ∈ keys, ∃ side, (view.locate key).result = .ok (some side)) :
    (view.tree.children key).result = .ok keys := by
  obtain ⟨handles, told, same⟩ := result_frontChildren located
  have children : (view.childrenOf (view.handle key .front)).result = .ok handles :=
    (Read.result_bind_of_ok (view.result_check key .front)).trans
      ((Read.result_bind_of_ok read).trans told)
  refine (Read.result_bind_of_ok (result_require found)).trans
    ((Read.result_bind_of_ok children).trans ?_)
  rw [same]
  rfl

/-- The children of a node that is read from the back are those back children that are shown. -/
theorem result_children_of_back {keys : List Key}
    (found : (view.locate key).result = .ok (some (.back other)))
    (read : (view.back.children other).result = .ok keys) :
    (view.tree.children key).result = .ok ((view.backChildren keys).map (·.key)) := by
  have children : (view.childrenOf (view.handle key (.back other))).result =
      .ok (view.backChildren keys) :=
    (Read.result_bind_of_ok (view.result_check key (.back other))).trans
      (Read.result_bind_of_ok read)
  exact (Read.result_bind_of_ok (result_require found)).trans (Read.result_bind_of_ok children)

end Merged

end VersionedTrees
