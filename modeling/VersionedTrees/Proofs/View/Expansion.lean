import VersionedTrees.Proofs.Delta.Verified
import VersionedTrees.Proofs.Donors.Expansion
import VersionedTrees.Proofs.Store.Reachable
import VersionedTrees.Proofs.View.Reads

/-!
# References read through a view and references expanded

A front store whose references point into a back store can be read through a merged view, which looks
each key up again on every read, or it can be expanded, which copies what the references stand for. If
the expansion succeeds, the two agree: they have the same keys in the same order, and for each key the
same content and the same children (`Merged.reads_agree_with_expand`).

The keys of the expansion are of three kinds, and the view has a way for each: front nodes that are no
tree-references, tree-references, and what the back has strictly below the target of one
(`Stitches.Grafts`). A key of the last kind is never a key of the front, or it would have come up twice.
-/

namespace VersionedTrees

variable {C : Type}

/-- The rows that a node of a delta stands for: its own and, for a tree-reference, copies of what is
below the target. -/
theorem Store.RefersInto.mem_standsFor_iff {source base : Store C} (refers : source.RefersInto base)
    (wellFormed : base.WellFormed) (allContent : base.AllContent) {node key : Key}
    {higher : Option Key} {payload : Payload C} {standing : Standing C}
    (found : source.layout node = some ⟨higher, payload⟩) :
    (key, standing) ∈ (base.taken (node, ⟨higher, payload⟩)).flatMap base.spelledOut ↔
      (key = node ∧ standing = ⟨higher, base.lend payload⟩) ∨
        ∃ reference, payload = .treeReference reference ∧
          (key, standing) ∈ base.copiesBelow reference.key node := by
  have resolves := refers.resolves node _ found
  cases payload with
  | content value =>
      rw [Expansion.flatMap_taken_of_not_isTreeReference rfl]
      simp
  | nodeReference reference =>
      rw [Expansion.flatMap_taken_of_not_isTreeReference rfl]
      simp
  | treeReference reference =>
      rw [Expansion.flatMap_taken_treeReference wellFormed allContent (resolves reference rfl).2]
      simp

/-- A front whose references into a back have been expanded. -/
structure Stitches (front back expanded : Store C) : Prop where
  refers : front.RefersInto back
  wellFormed : back.WellFormed
  allContent : back.AllContent
  fresh : Layout.Fresh (fun _ => none) (back.standsFor front)
  builds : expanded.Builds front.id (Layout.plant (fun _ => none) (back.standsFor front))

/-- A tree-reference of the front stands for a back key that is a child of another one, at or below
the target. -/
structure Grafts (front back : Store C) (node : Key) (reference : Reference) (key above : Key) :
    Prop where
  found : ∃ higher, front.layout node = some ⟨higher, .treeReference reference⟩
  isChild : back.layout.IsChild key above
  within : back.layout.Within reference.key above

namespace Grafts

variable {front back : Store C} {node key above child : Key} {reference : Reference}

theorem holds_node (grafts : Grafts front back node reference key above) :
    front.layout.Holds node :=
  let ⟨_, found⟩ := grafts.found
  ⟨_, found⟩

/-- A grafted key is copied with its payload, below the tree-reference if it is a child of the
target. -/
theorem copied (wellFormed : back.WellFormed) (grafts : Grafts front back node reference key above)
    {payload : Payload C} (found : back.layout key = some ⟨some above, payload⟩) :
    (key, ⟨some (if above = reference.key then node else above), payload⟩) ∈
      back.copiesBelow reference.key node :=
  wellFormed.mem_copiesBelow_iff.mpr ⟨above, payload, found, grafts.within, rfl⟩

/-- The target itself is not grafted. -/
theorem ne_target (wellFormed : back.WellFormed)
    (grafts : Grafts front back node reference key above) : key ≠ reference.key := by
  rintro rfl
  exact grafts.isChild.not_within wellFormed.isTree grafts.within

/-- What is below a grafted key is grafted with it. -/
theorem below (grafts : Grafts front back node reference key above)
    (isChild : back.layout.IsChild child key) : Grafts front back node reference child key :=
  ⟨grafts.found, isChild, grafts.isChild.within grafts.within⟩

/-- A back parent below the target is grafted too. -/
theorem higher (wellFormed : back.WellFormed) (grafts : Grafts front back node reference key above)
    (different : above ≠ reference.key) :
    ∃ upper, Grafts front back node reference above upper := by
  rcases grafts.within.holds.isRoot_or_isChild with isRoot | ⟨upper, isChild⟩
  · exact absurd (isRoot.within_iff.mp grafts.within).symm different
  · refine ⟨upper, grafts.found, isChild, ?_⟩
    rcases (Layout.within_iff_of_isChild isChild wellFormed.isTree).mp grafts.within with
      same | within
    · exact absurd same.symm different
    · exact within

end Grafts

namespace Stitches

variable {front back expanded : Store C} {node key above child : Key} {reference : Reference}
  {parent : Option Key} {payload : Payload C}

section

variable (stitches : Stitches front back expanded)
include stitches

/-- The expansion holds the nodes of the front with the content that they lend, and the grafted ones,
of which the uppermost hang below the tree-reference. -/
theorem layout_iff :
    expanded.layout key = some ⟨parent, payload⟩ ↔
      (∃ own, front.layout key = some ⟨parent, own⟩ ∧ payload = back.lend own) ∨
        ∃ node reference above, Grafts front back node reference key above ∧
          back.layout key = some ⟨some above, payload⟩ ∧
          parent = some (if above = reference.key then node else above) := by
  obtain ⟨refers, wellFormed, allContent, fresh, builds⟩ := stitches
  rw [builds.layout_eq, Layout.plant_empty_eq_some_iff fresh, Store.standsFor, List.flatMap_assoc,
    List.mem_flatMap]
  constructor
  · rintro ⟨⟨node, higher, own⟩, among, inside⟩
    have found := refers.wellFormed.mem_rows_iff.mp among
    rcases (refers.mem_standsFor_iff wellFormed allContent found).mp inside with
      ⟨rfl, same⟩ | ⟨reference, rfl, copied⟩
    · cases same
      exact .inl ⟨own, found, rfl⟩
    · obtain ⟨above, payload', found', within, same⟩ := wellFormed.mem_copiesBelow_iff.mp copied
      cases same
      exact .inr ⟨node, reference, above, ⟨⟨higher, found⟩, ⟨_, found'⟩, within⟩, found', rfl⟩
  · rintro (⟨own, found, rfl⟩ | ⟨node, reference, above, grafts, found', rfl⟩)
    · refine ⟨_, refers.wellFormed.mem_rows_iff.mpr found, ?_⟩
      exact (refers.mem_standsFor_iff wellFormed allContent found).mpr (.inl ⟨rfl, rfl⟩)
    · obtain ⟨higher, found⟩ := grafts.found
      refine ⟨_, refers.wellFormed.mem_rows_iff.mpr found, ?_⟩
      exact (refers.mem_standsFor_iff wellFormed allContent found).mpr
        (.inr ⟨reference, rfl, grafts.copied wellFormed found'⟩)

/-- A grafted key is not a key of the front. -/
theorem absent_of_grafts (grafts : Grafts front back node reference key above) :
    front.layout key = none := by
  obtain ⟨refers, wellFormed, allContent, ⟨nodup, -⟩, -⟩ := stitches
  obtain ⟨higher, found⟩ := grafts.found
  obtain ⟨payload, found'⟩ := grafts.isChild
  have copied := grafts.copied wellFormed found'
  rw [Store.standsFor, List.flatMap_assoc, List.map_flatMap] at nodup
  obtain ⟨each, apart⟩ := List.nodup_flatMap.mp nodup
  rw [← Layout.not_holds_iff]
  rintro ⟨⟨parent, payload'⟩, stands⟩
  have among := refers.wellFormed.mem_rows_iff.mpr found
  have among' := refers.wellFormed.mem_rows_iff.mpr stands
  by_cases same : key = node
  · -- the key would come twice among the rows of the tree-reference itself
    subst same
    have nodup := each _ among
    rw [Expansion.flatMap_taken_treeReference wellFormed allContent
      (refers.resolves key _ found reference rfl).2, List.map_cons, List.nodup_cons] at nodup
    exact nodup.1 (List.mem_map.mpr ⟨_, copied, rfl⟩)
  · -- the key would come among the rows of two nodes of the front
    have different : (key, (⟨parent, payload'⟩ : Standing C)) ≠
        (node, ⟨higher, .treeReference reference⟩) := fun equal => same (congrArg Prod.fst equal)
    have symmetric : Std.Symm (Function.onFun List.Disjoint fun row =>
        ((back.taken row).flatMap back.spelledOut).map Prod.fst) := ⟨fun _ _ apart _ first second =>
          apart second first⟩
    have own := (refers.mem_standsFor_iff wellFormed allContent stands).mpr (.inl ⟨rfl, rfl⟩)
    have other := (refers.mem_standsFor_iff wellFormed allContent found).mpr
      (.inr ⟨reference, rfl, copied⟩)
    exact apart.forall among' among different (List.mem_map.mpr ⟨_, own, rfl⟩)
      (List.mem_map.mpr ⟨_, other, rfl⟩)

/-- All keys of the expansion come from one of the two stores. -/
theorem mem_keys_of_holds (key : Key) (holds : expanded.layout.Holds key) :
    key ∈ front.keys ++ back.keys := by
  obtain ⟨⟨parent, payload⟩, found⟩ := holds
  rw [List.mem_append, Store.mem_keys_iff, Store.mem_keys_iff]
  rcases stitches.layout_iff.mp found with ⟨own, stands, _⟩ | ⟨_, _, _, _, there, _⟩
  · exact .inl ⟨_, stands⟩
  · exact .inr ⟨_, there⟩

/-- The expansion holds no references. -/
theorem exists_content (found : expanded.layout key = some ⟨parent, payload⟩) :
    ∃ value, payload = .content value := by
  rcases stitches.layout_iff.mp found with ⟨own, stands, rfl⟩ | ⟨_, _, _, _, there, _⟩
  · exact Payload.exists_content
      (stitches.allContent.not_isReference_lend (stitches.refers.resolves key _ stands))
  · exact stitches.allContent.exists_content there

/-! ## Children in the expansion -/

theorem isChild_iff :
    expanded.layout.IsChild child key ↔ front.layout.IsChild child key ∨
      ∃ node reference above, Grafts front back node reference child above ∧
        key = if above = reference.key then node else above := by
  constructor
  · rintro ⟨payload, found⟩
    rcases stitches.layout_iff.mp found with ⟨own, found, -⟩ | ⟨node, reference, above, grafts, -, same⟩
    · exact .inl ⟨own, found⟩
    · exact .inr ⟨node, reference, above, grafts, Option.some.inj same⟩
  · rintro (⟨own, found⟩ | ⟨node, reference, above, grafts, same⟩)
    · exact ⟨_, stitches.layout_iff.mpr (.inl ⟨own, found, rfl⟩)⟩
    · obtain ⟨payload, found⟩ := grafts.isChild
      exact ⟨payload, stitches.layout_iff.mpr
        (.inr ⟨node, reference, above, grafts, found, congrArg some same⟩)⟩

/-- The children of a front node that is no tree-reference are those that it has in the front. -/
theorem isChild_plain_iff (found : front.layout key = some ⟨parent, payload⟩)
    (plain : payload.isTreeReference = false) :
    expanded.layout.IsChild child key ↔ front.layout.IsChild child key := by
  rw [stitches.isChild_iff, or_iff_left_iff_imp]
  rintro ⟨node, reference, above, grafts, same⟩
  by_cases direct : above = reference.key
  · rw [if_pos direct] at same
    subst same
    obtain ⟨higher, found'⟩ := grafts.found
    rw [found] at found'
    cases found'
    cases plain
  · rw [if_neg direct] at same
    subst same
    obtain ⟨upper, grafts⟩ := grafts.higher stitches.wellFormed direct
    rw [stitches.absent_of_grafts grafts] at found
    cases found

/-- The children of a tree-reference are those of its target. -/
theorem isChild_treeReference_iff
    (found : front.layout key = some ⟨parent, .treeReference reference⟩) :
    expanded.layout.IsChild child key ↔ back.layout.IsChild child reference.key := by
  rw [stitches.isChild_iff]
  constructor
  · rintro (isChild | ⟨node, reference', above, grafts, same⟩)
    · exact absurd isChild (stitches.refers.leaf key child parent reference found)
    · by_cases direct : above = reference'.key
      · rw [if_pos direct] at same
        subst same
        obtain ⟨higher, found'⟩ := grafts.found
        rw [found] at found'
        cases found'
        rw [← direct]
        exact grafts.isChild
      · rw [if_neg direct] at same
        subst same
        obtain ⟨upper, grafts⟩ := grafts.higher stitches.wellFormed direct
        rw [stitches.absent_of_grafts grafts] at found
        cases found
  · intro isChild
    have holds := stitches.wellFormed.isTree.parent_holds isChild
    exact .inr ⟨key, reference, reference.key,
      ⟨⟨parent, found⟩, isChild, stitches.wellFormed.isTree.within_self holds⟩, (if_pos rfl).symm⟩

/-- The children of a grafted key are those that it has in the back. -/
theorem isChild_grafted_iff (grafts : Grafts front back node reference key above) :
    expanded.layout.IsChild child key ↔ back.layout.IsChild child key := by
  have absent := Layout.not_holds_iff.mpr (stitches.absent_of_grafts grafts)
  rw [stitches.isChild_iff]
  constructor
  · rintro (isChild | ⟨node', reference', above', grafts', same⟩)
    · exact absurd (stitches.refers.wellFormed.isTree.parent_holds isChild) absent
    · by_cases direct : above' = reference'.key
      · rw [if_pos direct] at same
        subst same
        exact absurd grafts'.holds_node absent
      · rw [if_neg direct] at same
        subst same
        exact grafts'.isChild
  · intro isChild
    exact .inr ⟨node, reference, key, grafts.below isChild,
      (if_neg (grafts.ne_target stitches.wellFormed)).symm⟩

end

end Stitches

/-! ## The view -/

namespace Merged

/-- A front store over a back store, with the same keys on both sides and nothing hidden. -/
def ofStores (front back : Store C) (settings : ViewSettings) (trap : Option Trap) : Merged C where
  front := front.tree
  back := back.tree
  keys := .identity
  settings := settings
  trap := trap

variable {front back expanded : Store C} {settings : ViewSettings} {trap : Option Trap}
  {key node above : Key} {reference : Reference} {parent : Option Key} {payload : Payload C}
  {standing : Standing C}

/-- With the same keys on both sides and nothing hidden, all children are shown. -/
theorem backChildren_eq (keys : List Key) :
    (ofStores front back settings trap).backChildren keys = keys.map fun key =>
      (ofStores front back settings trap).handle key (.back key) := by
  have all : keys.filter (fun key => !(∅ : KeySet).contains key) = keys := by
    simp
  change (keys.filter fun key => !(∅ : KeySet).contains key).filterMap _ = _
  rw [all]
  exact congrFun List.filterMap_eq_map keys

theorem map_key_backChildren (keys : List Key) :
    ((ofStores front back settings trap).backChildren keys).map (·.key) = keys := by
  rw [backChildren_eq, List.map_map]
  exact List.map_id _

theorem result_contains_back (holds : back.layout.Holds key) :
    ((ofStores front back settings trap).back.contains key).result = .ok true :=
  congrArg Except.ok (Store.contains_iff_holds.mpr holds)

section

variable (stitches : Stitches front back expanded)
include stitches

/-- Every key of the front is located. -/
theorem exists_located (found : front.layout key = some ⟨parent, payload⟩) :
    ∃ side, ((ofStores front back settings trap).locate key).result = .ok (some side) := by
  have node : ((ofStores front back settings trap).front.node key).result =
      .ok (some ⟨key, payload⟩) := Buffer.result_node_base found
  cases payload with
  | content value => exact ⟨_, result_locate_of_plain node rfl⟩
  | nodeReference reference => exact ⟨_, result_locate_of_plain node rfl⟩
  | treeReference reference =>
      obtain ⟨same, holds⟩ := stitches.refers.resolves key _ found reference rfl
      exact ⟨_, result_locate_of_treeReference node same (result_contains_back holds)⟩

/-- A front node that is no tree-reference is shown with the content that it lends, over its front
children. -/
theorem reads_plain (found : front.layout key = some ⟨parent, payload⟩)
    (plain : payload.isTreeReference = false) :
    ((ofStores front back settings trap).tree.node key).result =
        .ok (some ⟨key, back.lend payload⟩) ∧
      ((ofStores front back settings trap).tree.children key).result =
        .ok (expanded.tree.childList key) := by
  have node : ((ofStores front back settings trap).front.node key).result =
      .ok (some ⟨key, payload⟩) := Buffer.result_node_base found
  have read := Buffer.result_payload_of_found node
  have located := result_locate_of_plain node plain
  have frontListed := stitches.refers.wellFormed.listed
  constructor
  · apply result_node located
    cases payload with
    | content value =>
        rw [back.lend_of_not_isReference rfl]
        exact result_materialize_of_front (result_frontContent_of_content read)
    | nodeReference reference =>
        obtain ⟨same, target, there⟩ := stitches.refers.resolves key _ found reference rfl
        obtain ⟨value, content⟩ := stitches.allContent.exists_content there
        have targetNode := Buffer.result_node_base there
        rw [content] at targetNode
        rw [Store.lend_of_reference rfl there, content]
        exact result_materialize_of_front (result_frontContent_of_nodeReference read same
          (result_contains_back ⟨target, there⟩) targetNode)
    | treeReference reference => cases plain
  · have same : expanded.tree.childList key = front.tree.childList key :=
      stitches.builds.wellFormed.listed.eq_of_isChild_iff frontListed
        fun child => stitches.isChild_plain_iff found plain
    rw [same]
    apply result_children_of_front located
      (stitches.refers.wellFormed.shows.result_children ⟨_, found⟩)
    intro child inside
    obtain ⟨payload, found⟩ := (frontListed.mem_iff key child).mp inside
    exact exists_located stitches found

/-- What is read from the back is shown with the content and the children that it has there. -/
theorem reads_back {other : Key} (holds : back.layout other = some standing)
    (located : ((ofStores front back settings trap).locate key).result = .ok (some (.back other)))
    (isChild_iff : ∀ child, expanded.layout.IsChild child key ↔ back.layout.IsChild child other) :
    ((ofStores front back settings trap).tree.node key).result =
        .ok (some ⟨key, standing.payload⟩) ∧
      ((ofStores front back settings trap).tree.children key).result =
        .ok (expanded.tree.childList key) := by
  obtain ⟨value, content⟩ := stitches.allContent.exists_content holds
  have node := Buffer.result_node_base holds
  rw [content] at node ⊢
  have same : expanded.tree.childList key = back.tree.childList other :=
    stitches.builds.wellFormed.listed.eq_of_isChild_iff stitches.wellFormed.listed isChild_iff
  constructor
  · apply result_node located
    exact result_materialize_of_back (result_backContent (Buffer.result_payload_of_found node))
  · rw [same, result_children_of_back located
      (stitches.wellFormed.shows.result_children ⟨_, holds⟩), map_key_backChildren]

/-- The view reads every key of the expansion as it stands there. -/
theorem reads_expanded (found : expanded.layout key = some standing) :
    ((ofStores front back settings trap).tree.node key).result =
        .ok (some ⟨key, standing.payload⟩) ∧
      ((ofStores front back settings trap).tree.children key).result =
        .ok (expanded.tree.childList key) := by
  obtain ⟨parent, payload⟩ := standing
  rcases stitches.layout_iff.mp found with
    ⟨own, stands, rfl⟩ | ⟨node, reference, above, grafts, there, -⟩
  · cases isTree : own.isTreeReference with
    | false => exact reads_plain stitches stands isTree
    | true =>
        cases own with
        | content value => cases isTree
        | nodeReference reference => cases isTree
        | treeReference reference =>
            obtain ⟨same, target, there⟩ := stitches.refers.resolves key _ stands reference rfl
            rw [Store.lend_of_reference rfl there]
            apply reads_back stitches there
            · exact result_locate_of_treeReference (Buffer.result_node_base stands) same
                (result_contains_back ⟨target, there⟩)
            · exact fun child => stitches.isChild_treeReference_iff stands
  · have absent := stitches.absent_of_grafts grafts
    have node : ((ofStores front back settings trap).front.node key).result = .ok none := by
      change Except.ok (front.node? key) = _
      rw [front.node?_eq, absent]
      rfl
    have located := result_locate_of_absent node rfl Std.TreeSet.contains_emptyc
      (result_contains_back ⟨_, there⟩)
    have reads := reads_back stitches there located fun child => stitches.isChild_grafted_iff grafts
    exact reads

/-- The keys of the expansion are told in the same order. -/
theorem exists_keys (nonempty : front.isEmpty = false) :
    ∃ keys, (ofStores front back settings trap).tree.keys.result = .ok keys ∧
      expanded.tree.keys.result = .ok keys := by
  have shows := stitches.builds.wellFormed.shows
  cases found : front.root with
  | none =>
      have empty := Store.isEmpty_iff.mpr (stitches.refers.wellFormed.layout_of_no_root found)
      rw [nonempty] at empty
      cases empty
  | some root =>
      obtain ⟨own, stands⟩ := (stitches.refers.wellFormed.root root).mp found
      have isRoot : expanded.layout.IsRoot root :=
        ⟨_, stitches.layout_iff.mpr (.inl ⟨own, stands, rfl⟩)⟩
      obtain ⟨standing, there⟩ := isRoot.holds
      have frontRoot : (ofStores front back settings trap).front.rootKey.result =
          .ok (some root) := congrArg Except.ok found
      have rootKey : (ofStores front back settings trap).tree.rootKey.result = .ok (some root) :=
        result_rootKey frontRoot (reads_expanded stitches there).1
      have children : ∀ key, expanded.layout.Holds key →
          ((ofStores front back settings trap).tree.children key).result =
            .ok (expanded.tree.childList key) := fun key ⟨_, there⟩ =>
        (reads_expanded stitches there).2
      have told := Tree.result_keysWithin expanded.layout.Holds children
        (fun above _ below inside => ((shows.listed.mem_iff above below).mp inside).holds)
        (ofStores front back settings trap).tree.levels root isRoot.holds
      refine ⟨_, (Read.result_bind_of_ok rootKey).trans told, ?_⟩
      rw [shows.result_keys_of_isRoot isRoot]
      apply congrArg
      -- both numbers of levels suffice
      apply preorder_eq_preorder (shows.exhausts isRoot.holds (Nat.le_refl _))
      have depth : expanded.layout.DepthAtMost (front.size + back.size) := by
        intro key line isLine
        have inside : ∀ key, expanded.layout.Holds key → key ∈ front.keys ++ back.keys :=
          stitches.mem_keys_of_holds
        have length := isLine.length_le inside
        rwa [List.length_append, Store.length_keys, Store.length_keys] at length
      exact shows.listed.exhausts_of_holds shows.isTree depth isRoot.holds (Nat.le_succ _)

end

/-- A front whose references can be expanded is stitched together by the expansion. -/
theorem stitches_of_expand (frontEdits : front.Reachable) (backEdits : back.Reachable)
    (allContent : back.AllContent)
    (pointsInto : ∀ key payload reference, front.payload? key = some payload →
      payload.reference? = some reference → reference.PointsInto back.tree)
    (childless : front.LeafReferences)
    (expands : ((Donors.mk [back.tree]).expand front.tree).result = .ok expanded) :
    Stitches front back expanded := by
  have refers : front.RefersInto back := by
    apply Store.RefersInto.of_leafReferences frontEdits.wellFormed _ childless
    intro key standing found reference points
    exact Store.pointsInto_iff.mp
      (pointsInto key standing.payload reference (Store.payload?_of_layout found) points)
  rcases Donors.result_expand_single refers backEdits.wellFormed allContent with
    ⟨fresh, built, ok, builds⟩ | ⟨-, fault, failed⟩
  · obtain rfl := Except.ok.inj (ok.symm.trans expands)
    exact ⟨refers, backEdits.wellFormed, allContent, fresh, builds⟩
  · rw [failed] at expands
    cases expands

/-- A view of a front store over a back store agrees with the expansion of the front's references: it
tells the same keys, and for each of them the same content and the same children. -/
theorem reads_agree_with_expand (frontEdits : front.Reachable) (backEdits : back.Reachable)
    (allContent : back.AllContent) (nonempty : front.isEmpty = false)
    (pointsInto : ∀ key payload reference, front.payload? key = some payload →
      payload.reference? = some reference → reference.PointsInto back.tree)
    (childless : front.LeafReferences)
    (expands : ((Donors.mk [back.tree]).expand front.tree).result = .ok expanded)
    (settings : ViewSettings) (trap : Option Trap) :
    let view := (ofStores front back settings trap).tree
    ∃ keys, view.keys.result = .ok keys ∧ expanded.tree.keys.result = .ok keys ∧
      ∀ key ∈ keys, ∃ value children,
        (view.node key).result = .ok (some ⟨key, .content value⟩) ∧
        (expanded.tree.node key).result = .ok (some ⟨key, .content value⟩) ∧
        (view.children key).result = .ok children ∧
        (expanded.tree.children key).result = .ok children := by
  intro view
  have stitches := stitches_of_expand frontEdits backEdits allContent pointsInto childless expands
  have shows := stitches.builds.wellFormed.shows
  obtain ⟨keys, told, told'⟩ := exists_keys stitches nonempty
  refine ⟨keys, told, told', fun key inside => ?_⟩
  obtain ⟨keys', same, -, mem_iff⟩ := shows.exists_keys
  obtain rfl := Except.ok.inj (told'.symm.trans same)
  obtain ⟨⟨parent, payload⟩, found⟩ := (mem_iff key).mp inside
  obtain ⟨value, rfl⟩ := stitches.exists_content found
  obtain ⟨node, children⟩ := reads_expanded stitches found
  exact ⟨value, _, node, Buffer.result_node_base found, children, shows.result_children ⟨_, found⟩⟩

/-- The references of a delta that has been verified point into the tree that it was verified with. -/
theorem pointsInto_of_verify (verified : (Delta.verify ⟨back.id, front⟩ back.tree).result = .ok ()) :
    ∀ key payload reference, front.payload? key = some payload →
      payload.reference? = some reference → reference.PointsInto back.tree := by
  intro key payload reference found points
  rw [Store.payload?_eq, Option.map_eq_some_iff] at found
  obtain ⟨standing, found, rfl⟩ := found
  exact (Delta.result_verify_tree_iff.mp verified).2 key standing found reference points

/-- A front over a chain that renames the middle, borrows the root, and has a node of its own under
the key of the chain's root. -/
def stitchedEdits : List (StoreEdit String) :=
  [.insert none (.exactly (.number 9)) (.content "top"),
    .insert (some (.number 9)) (.exactly (.number 4)) (.treeReference ⟨⟨1⟩, .number 2⟩),
    .insert (some (.number 9)) (.exactly (.number 1)) (.content "own"),
    .insert (some (.number 9)) (.exactly (.text "n")) (.nodeReference ⟨⟨1⟩, .number 1⟩)]

/-- The view of the front over the chain agrees with the expansion, which has five nodes. -/
theorem reads_agree_with_expand_stitched :
    let front := Store.ofEdits ⟨5⟩ stitchedEdits
    let view := (ofStores front Store.chain {} none).tree
    front.Reachable ∧ Store.chain.Reachable ∧ Store.chain.AllContent ∧ front.isEmpty = false ∧
      (∀ key payload reference, front.payload? key = some payload →
        payload.reference? = some reference → reference.PointsInto Store.chain.tree) ∧
      front.LeafReferences ∧ ∃ expanded,
        ((Donors.mk [Store.chain.tree]).expand front.tree).result = .ok expanded ∧
        expanded.tree.keys.result =
          .ok [.number 9, .number 1, .number 4, .number 3, .text "n"] ∧
        ∃ keys, view.keys.result = .ok keys ∧ expanded.tree.keys.result = .ok keys ∧
          ∀ key ∈ keys, ∃ value children,
            (view.node key).result = .ok (some ⟨key, .content value⟩) ∧
            (expanded.tree.node key).result = .ok (some ⟨key, .content value⟩) ∧
            (view.children key).result = .ok children ∧
            (expanded.tree.children key).result = .ok children := by
  intro front view
  have frontEdits : front.Reachable := Store.reachable_ofEdits ⟨5⟩ stitchedEdits
  have backEdits : Store.chain.Reachable := Store.reachable_ofEdits ⟨1⟩ Store.chainEdits
  have nonempty : front.isEmpty = false := by decide +kernel
  have verified : (Delta.verify ⟨Store.chain.id, front⟩ Store.chain.tree).result = .ok () := by
    decide +kernel
  have pointsInto := pointsInto_of_verify verified
  have childless : front.LeafReferences := Store.leafReferences_of_entries (by decide +kernel)
  have told : (do
      let expanded ← (Donors.mk [Store.chain.tree]).expand front.tree
      expanded.tree.keys).result =
        .ok [.number 9, .number 1, .number 4, .number 3, .text "n"] := by decide +kernel
  obtain ⟨expanded, ok, keys⟩ := Read.result_bind_eq_ok told
  exact ⟨frontEdits, backEdits, Store.allContent_chain, nonempty, pointsInto, childless, expanded,
    ok, keys, reads_agree_with_expand frontEdits backEdits Store.allContent_chain nonempty pointsInto
      childless ok {} none⟩

end Merged

end VersionedTrees
