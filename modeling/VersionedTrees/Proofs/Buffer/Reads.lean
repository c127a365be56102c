import VersionedTrees.Proofs.Buffer.Changes
import VersionedTrees.Proofs.View.Reads

/-!
# Reading a change buffer

What a buffer over a store answers depends on its changes alone. As long as its references point into
the base no read fails but for want of the node, whatever the trap and the settings: `SideOf` tells
where a key is read from, and for each question there is one statement for each side.
-/

namespace VersionedTrees

variable {C : Type}

/-- A buffer over a store holds given changes. -/
structure Buffer.Records (base : Store C) (changes : Changes C) (buffer : Buffer C) : Prop where
  backing : buffer.backing = .store base
  wellFormed : buffer.overlay.WellFormed
  overlay : buffer.overlay.layout = changes.overlay
  deleted : ∀ key, key ∈ buffer.deleted ↔ changes.deleted key

/-- The changes that a buffer holds. -/
def Buffer.changes (buffer : Buffer C) : Changes C :=
  ⟨buffer.overlay.layout, fun key => key ∈ buffer.deleted⟩

namespace Buffer

variable {base : Store C} {changes : Changes C} {buffer : Buffer C} {key parent : Key}

theorem Records.changes_eq (records : buffer.Records base changes) : buffer.changes = changes :=
  Changes.ext records.overlay (funext fun key => propext (records.deleted key))

theorem Records.backingTree (records : buffer.Records base changes) :
    buffer.backingTree = base.tree := by
  rw [Buffer.backingTree, records.backing]
  rfl

theorem Records.contains_overlay (records : buffer.Records base changes) :
    buffer.overlay.contains key = true ↔ changes.overlay.Holds key := by
  rw [Store.contains_iff_holds, records.overlay]

theorem Records.contains_overlay_eq_false (records : buffer.Records base changes) :
    buffer.overlay.contains key = false ↔ changes.overlay key = none := by
  rw [Store.contains_eq_false_iff, records.overlay]

theorem Records.contains_deleted (records : buffer.Records base changes) :
    buffer.deleted.contains key = true ↔ changes.deleted key := by
  rw [← records.deleted, Std.TreeSet.contains_iff_mem]

/-- Where a key is read from. -/
inductive SideOf (base : Store C) (changes : Changes C) (key : Key) : Option Side → Prop where
  | front (holds : changes.overlay.Holds key) (notLazy : ¬ changes.IsLazy key) :
      SideOf base changes key (some .front)
  | back (readsBack : changes.ReadsBack key) (holds : base.layout.Holds key) :
      SideOf base changes key (some (.back key))
  | absent (none : changes.shown base key = .none) : SideOf base changes key .none

theorem result_node_overlay (records : buffer.Records base changes) (key : Key) :
    (buffer.overlay.tree.node key).result =
      .ok ((changes.overlay key).map fun standing => ⟨key, standing.payload⟩) := by
  rw [← records.overlay]
  exact records.wellFormed.shows.node key

/-- A base key is in the back of the view. -/
theorem result_contains_base (records : buffer.Records base changes)
    (holds : base.layout.Holds key) : (buffer.merged.back.contains key).result = .ok true := by
  have back : buffer.merged.back = base.tree := records.backingTree
  rw [back]
  exact congrArg Except.ok (Store.contains_iff_holds.mpr holds)

/-- Every key is read from where it stands. -/
theorem exists_locate (admitted : changes.Admitted base) (records : buffer.Records base changes)
    (key : Key) : ∃ side, (buffer.merged.locate key).result = .ok side ∧
      SideOf base changes key side := by
  have back : buffer.merged.back = base.tree := records.backingTree
  cases found : changes.overlay key with
  | some standing =>
      obtain ⟨above, payload⟩ := standing
      have node : (buffer.merged.front.node key).result = .ok (some ⟨key, payload⟩) :=
        (result_node_overlay records key).trans (by rw [found]; rfl)
      have admits := admitted key _ found
      have notLazy : payload.isTreeReference = false → ¬ changes.IsLazy key := by
        rintro notReference ⟨_, _, found'⟩
        rw [found] at found'
        cases found'
        cases notReference
      cases payload with
      | content value =>
          exact ⟨_, Merged.result_locate_of_plain node rfl, .front ⟨_, found⟩ (notLazy rfl)⟩
      | nodeReference reference =>
          exact ⟨_, Merged.result_locate_of_plain node rfl, .front ⟨_, found⟩ (notLazy rfl)⟩
      | treeReference reference =>
          obtain ⟨rfl, holds⟩ := admits
          refine ⟨some (.back key), ?_, .back (.inl ⟨_, _, found⟩) holds⟩
          exact Merged.result_locate_of_treeReference node (congrArg Tree.id back).symm
            (result_contains_base records holds)
  | none =>
      have node : (buffer.merged.front.node key).result = .ok none :=
        (result_node_overlay records key).trans (by rw [found]; rfl)
      have contains : (buffer.merged.back.contains key).result = .ok (base.contains key) := by
        rw [back]
        rfl
      by_cases deleted : changes.deleted key
      · refine ⟨none, ?_, .absent (Changes.shown_of_deleted found deleted)⟩
        refine (Read.result_bind_of_ok node).trans ?_
        exact congrArg Read.result (if_pos (records.contains_deleted.mpr deleted))
      · have kept : buffer.deleted.contains key = false := by
          rw [← Bool.not_eq_true, records.contains_deleted]
          exact deleted
        have notDeleted : ¬ buffer.deleted.contains key = true := by simp [kept]
        have onward : (buffer.merged.locate key).result =
            (if base.contains key then pure (some (.back key)) else pure none :
              Read (Option Side)).result := by
          refine (Read.result_bind_of_ok node).trans ?_
          exact (congrArg Read.result (if_neg notDeleted)).trans (Read.result_bind_of_ok contains)
        cases there : base.layout key with
        | none =>
            refine ⟨none, onward.trans ?_, .absent ((Changes.shown_of_kept found deleted).trans there)⟩
            rw [Store.contains_eq_false_iff.mpr there]
            rfl
        | some standing =>
            refine ⟨some (.back key), onward.trans ?_, .back (.inr ⟨found, deleted⟩) ⟨_, there⟩⟩
            rw [Store.contains_iff_holds.mpr ⟨_, there⟩]
            rfl

/-- What is read from somewhere is shown. -/
theorem SideOf.isSome_iff {side : Option Side} (sideOf : SideOf base changes key side) :
    side.isSome = (changes.shown base key).isSome := by
  cases sideOf with
  | front holds _ =>
      exact (Layout.holds_iff_isSome.mp (Changes.holds_shown_of_overlay holds)).symm
  | back readsBack holds => exact (Layout.holds_iff_isSome.mp (readsBack.holds_shown holds)).symm
  | absent none => rw [none]; rfl

theorem exists_get (admitted : changes.Admitted base) (records : buffer.Records base changes)
    (key : Key) : ∃ side, (buffer.merged.get key).result =
      .ok (side.map (buffer.merged.handle key)) ∧ SideOf base changes key side := by
  obtain ⟨side, located, sideOf⟩ := exists_locate admitted records key
  exact ⟨side, Merged.result_get located, sideOf⟩

theorem result_contains (admitted : changes.Admitted base) (records : buffer.Records base changes)
    (key : Key) : (buffer.tree.contains key).result = .ok (changes.shown base key).isSome := by
  obtain ⟨side, got, sideOf⟩ := exists_get admitted records key
  refine (Read.result_bind_of_ok got).trans ?_
  rw [← sideOf.isSome_iff, ← Option.isSome_map (f := buffer.merged.handle key)]
  rfl

/-! ## Content -/

/-- A node that can be read has a payload that can be read. -/
theorem result_payload_of_found {tree : Tree C} {found : Node C}
    (node : (tree.node key).result = .ok (some found)) :
    (tree.payload key).result = .ok found.payload :=
  Read.result_bind_of_ok node

/-- The node of a store under a key of its layout. -/
theorem result_node_base {standing : Standing C} (found : base.layout key = some standing) :
    (base.tree.node key).result = .ok (some ⟨key, standing.payload⟩) := by
  change Except.ok (base.node? key) = _
  rw [base.node?_eq, found]
  rfl

section Content

variable (allContent : base.AllContent)
include allContent

/-- An overlay node that is not lazy has the content that its payload stands for. -/
theorem result_frontContent (admitted : changes.Admitted base) (records : buffer.Records base changes)
    (holds : changes.overlay.Holds key) (notLazy : ¬ changes.IsLazy key) :
    ∃ above value, changes.shown base key = some ⟨above, .content value⟩ ∧
      (buffer.merged.frontContent key).result = .ok (some value) := by
  obtain ⟨⟨above, payload⟩, found⟩ := holds
  have node : (buffer.merged.front.node key).result = .ok (some ⟨key, payload⟩) :=
    (result_node_overlay records key).trans (by rw [found]; rfl)
  have shown : changes.shown base key = some ⟨above, base.lend payload⟩ :=
    Changes.shown_of_overlay found
  cases payload with
  | content value =>
      exact ⟨above, value, shown,
        Merged.result_frontContent_of_content (result_payload_of_found node)⟩
  | nodeReference reference =>
      obtain ⟨same, standing, there⟩ := admitted key _ found
      obtain ⟨value, content⟩ := allContent.exists_content there
      have target := result_node_base there
      have back : buffer.merged.back = base.tree := records.backingTree
      rw [← back, content] at target
      refine ⟨above, value, ?_, ?_⟩
      · rw [shown, Store.lend_of_reference rfl there, content]
      · exact Merged.result_frontContent_of_nodeReference (result_payload_of_found node)
          (same.trans (congrArg Tree.id back).symm) (result_contains_base records ⟨_, there⟩) target
  | treeReference reference => exact absurd ⟨above, reference, found⟩ notLazy

/-- A node that is read from the base has the content that it has there. -/
theorem result_backContent (admitted : changes.Admitted base) (records : buffer.Records base changes)
    (readsBack : changes.ReadsBack key) (holds : base.layout.Holds key) :
    ∃ above value, changes.shown base key = some ⟨above, .content value⟩ ∧
      (buffer.merged.backContent key).result = .ok (some value) := by
  obtain ⟨standing, there⟩ := holds
  obtain ⟨value, content⟩ := allContent.exists_content there
  have node := result_node_base there
  have back : buffer.merged.back = base.tree := records.backingTree
  rw [← back, content] at node
  have read : (buffer.merged.backContent key).result = .ok (some value) :=
    Merged.result_backContent (result_payload_of_found node)
  rcases readsBack with ⟨above, reference, found⟩ | ⟨absent, kept⟩
  · obtain ⟨rfl, -⟩ := admitted key _ found
    refine ⟨above, value, ?_, read⟩
    rw [Changes.shown_of_overlay found, Store.lend_of_reference rfl there, content]
  · refine ⟨standing.parent, value, ?_, read⟩
    rw [Changes.shown_of_kept absent kept, there, ← content]

/-- A node that is shown has the content that its payload stands for. -/
theorem result_materialize (admitted : changes.Admitted base) (records : buffer.Records base changes)
    {side : Side} (sideOf : SideOf base changes key (some side)) :
    (buffer.merged.materialize (buffer.merged.handle key side)).result =
      .ok ((changes.shown base key).map fun standing => ⟨key, standing.payload⟩) := by
  cases sideOf with
  | front holds notLazy =>
      obtain ⟨above, value, shown, read⟩ :=
        result_frontContent allContent admitted records holds notLazy
      rw [shown]
      exact Merged.result_materialize_of_front read
  | back readsBack holds =>
      obtain ⟨above, value, shown, read⟩ :=
        result_backContent allContent admitted records readsBack holds
      rw [shown]
      exact Merged.result_materialize_of_back read

theorem result_node (admitted : changes.Admitted base) (records : buffer.Records base changes)
    (key : Key) : (buffer.tree.node key).result =
      .ok ((changes.shown base key).map fun standing => ⟨key, standing.payload⟩) := by
  obtain ⟨side, got, sideOf⟩ := exists_get admitted records key
  refine (Read.result_bind_of_ok got).trans ?_
  cases side with
  | none =>
      cases sideOf with
      | absent none => rw [none]; rfl
  | some side => exact result_materialize allContent admitted records sideOf

end Content

/-! ## Parents and children -/

theorem exists_locate_of_holds (admitted : changes.Admitted base) (records : buffer.Records base changes)
    (holds : (changes.shown base).Holds key) : ∃ side, SideOf base changes key (some side) ∧
      (buffer.merged.locate key).result = .ok (some side) := by
  obtain ⟨side, located, sideOf⟩ := exists_locate admitted records key
  cases side with
  | none =>
      cases sideOf with
      | absent none => exact absurd none (Layout.holds_iff_ne_none.mp holds)
  | some side => exact ⟨side, sideOf, located⟩

theorem result_require_of_absent (admitted : changes.Admitted base)
    (records : buffer.Records base changes) (absent : changes.shown base key = none) :
    (buffer.merged.require key).result = .error (.nodeNotFound key) := by
  obtain ⟨side, got, sideOf⟩ := exists_get admitted records key
  have none : side = none := by
    rw [← Option.isNone_iff_eq_none, ← Option.isSome_eq_false_iff, sideOf.isSome_iff, absent]
    rfl
  subst none
  exact Read.result_bind_of_ok got

/-- The parent of a node that is in the overlay is its overlay parent. -/
theorem result_parentKey_of_overlay (records : buffer.Records base changes)
    {standing : Standing C} {side : Side} (found : changes.overlay key = some standing)
    (sideOf : SideOf base changes key (some side)) :
    (buffer.merged.parentKey (buffer.merged.handle key side)).result = .ok standing.parent := by
  have parent : (buffer.overlay.tree.parent key).result = .ok standing.parent := by
    rw [records.wellFormed.shows.parent, records.overlay, found]
  cases sideOf with
  | front _ _ => exact parent
  | back readsBack _ =>
      rcases readsBack with ⟨above, reference, found'⟩ | ⟨absent, -⟩
      · rw [found] at found'
        cases found'
        have node : (buffer.merged.front.node key).result =
            .ok (some ⟨key, .treeReference reference⟩) :=
          (result_node_overlay records key).trans (by rw [found]; rfl)
        have isReference : (buffer.merged.isFrontTreeReference key).result = .ok true :=
          Read.result_bind_of_ok node
        exact (Read.result_bind_of_ok isReference).trans parent
      · rw [found] at absent
        cases absent

/-- The parent of a node that is only in the base is its base parent. -/
theorem result_parentKey_of_kept (wellFormed : base.WellFormed)
    (records : buffer.Records base changes) {standing : Standing C}
    (absent : changes.overlay key = none) (there : base.layout key = some standing) :
    (buffer.merged.parentKey (buffer.merged.handle key (.back key))).result =
      .ok standing.parent := by
  have back : buffer.merged.back = base.tree := records.backingTree
  have node : (buffer.merged.front.node key).result = .ok none :=
    (result_node_overlay records key).trans (by rw [absent]; rfl)
  have isReference : (buffer.merged.isFrontTreeReference key).result = .ok false :=
    Read.result_bind_of_ok node
  have parent : (buffer.merged.back.parent key).result = .ok standing.parent := by
    rw [back, wellFormed.shows.parent, there]
  refine (Read.result_bind_of_ok isReference).trans ((Read.result_bind_of_ok parent).trans ?_)
  cases standing.parent <;> rfl

theorem result_parentOf (admitted : changes.Admitted base) (records : buffer.Records base changes)
    {side : Side} {above : Option Key}
    (parentKey : (buffer.merged.parentKey (buffer.merged.handle key side)).result = .ok above) :
    ∃ parent, (buffer.merged.parentOf (buffer.merged.handle key side)).result = .ok parent ∧
      parent.map (·.key) = above.filter fun parent => (changes.shown base parent).isSome := by
  have check := Merged.result_check buffer.merged key side
  cases above with
  | none =>
      refine ⟨none, ?_, rfl⟩
      exact (Read.result_bind_of_ok check).trans (Read.result_bind_of_ok parentKey)
  | some parent =>
      obtain ⟨side', got, sideOf⟩ := exists_get admitted records parent
      refine ⟨side'.map (buffer.merged.handle parent), ?_, ?_⟩
      · refine (Read.result_bind_of_ok check).trans ?_
        exact (Read.result_bind_of_ok parentKey).trans got
      · rw [Option.filter_some, ← sideOf.isSome_iff]
        cases side' <;> rfl

/-- The parent of a node is told as long as it is shown itself. -/
theorem result_parent (wellFormed : base.WellFormed) (admitted : changes.Admitted base)
    (records : buffer.Records base changes) {standing : Standing C}
    (shown : changes.shown base key = some standing) :
    (buffer.tree.parent key).result =
      .ok (standing.parent.filter fun parent => (changes.shown base parent).isSome) := by
  obtain ⟨side, sideOf, located⟩ := exists_locate_of_holds admitted records ⟨_, shown⟩
  have parentKey : (buffer.merged.parentKey (buffer.merged.handle key side)).result =
      .ok standing.parent := by
    cases found : changes.overlay key with
    | some above =>
        rw [Changes.shown_of_overlay found] at shown
        obtain rfl := Option.some.inj shown
        exact (result_parentKey_of_overlay records found sideOf :)
    | none =>
        cases sideOf with
        | front holds _ => exact absurd found (Layout.holds_iff_ne_none.mp holds)
        | back readsBack _ =>
            rcases readsBack with isLazy | ⟨-, kept⟩
            · exact absurd found (Layout.holds_iff_ne_none.mp isLazy.holds)
            · rw [Changes.shown_of_kept found kept] at shown
              exact result_parentKey_of_kept wellFormed records found shown
  obtain ⟨parent, read, same⟩ := result_parentOf admitted records parentKey
  refine (Read.result_bind_of_ok (Merged.result_require located)).trans
    ((Read.result_bind_of_ok read).trans ?_)
  rw [← same]
  rfl

/-- Overlay keys are all shown, so the children of a node in front are its overlay children. -/
theorem result_children_of_overlay (admitted : changes.Admitted base)
    (records : buffer.Records base changes) (holds : changes.overlay.Holds key)
    (notLazy : ¬ changes.IsLazy key) :
    (buffer.tree.children key).result = .ok (buffer.overlay.tree.childList key) := by
  obtain ⟨side, sideOf, located⟩ :=
    exists_locate_of_holds admitted records (Changes.holds_shown_of_overlay holds)
  have front : side = .front := by
    cases sideOf with
    | front _ _ => rfl
    | back readsBack _ =>
        rcases readsBack with isLazy | ⟨absent, -⟩
        · exact absurd isLazy notLazy
        · exact absurd absent (Layout.holds_iff_ne_none.mp holds)
  subst front
  have children : (buffer.merged.front.children key).result =
      .ok (buffer.overlay.tree.childList key) := by
    refine records.wellFormed.shows.result_children ?_
    rwa [records.overlay]
  refine Merged.result_children_of_front located children fun child inside => ?_
  have isChild := (records.wellFormed.listed.mem_iff key child).mp inside
  rw [records.overlay] at isChild
  obtain ⟨side, -, found⟩ :=
    exists_locate_of_holds admitted records (Changes.holds_shown_of_overlay isChild.holds)
  exact ⟨side, found⟩

theorem result_children_of_readsBack (wellFormed : base.WellFormed) (admitted : changes.Admitted base)
    (records : buffer.Records base changes) (readsBack : changes.ReadsBack key)
    (holds : base.layout.Holds key) :
    (buffer.tree.children key).result =
      .ok ((base.tree.childList key).filter fun child => !buffer.deleted.contains child) := by
  obtain ⟨side, sideOf, located⟩ :=
    exists_locate_of_holds admitted records (readsBack.holds_shown holds)
  have back : side = .back key := by
    cases sideOf with
    | front holds notLazy =>
        rcases readsBack with isLazy | ⟨absent, -⟩
        · exact absurd isLazy notLazy
        · exact absurd absent (Layout.holds_iff_ne_none.mp holds)
    | back _ _ => rfl
  subst back
  have children : (buffer.merged.back.children key).result = .ok (base.tree.childList key) := by
    have back : buffer.merged.back = base.tree := records.backingTree
    rw [back]
    exact wellFormed.shows.result_children holds
  refine (Merged.result_children_of_back located children).trans ?_
  rw [Merged.backChildren, List.map_filterMap]
  exact congrArg Except.ok List.filterMap_some

theorem result_children_of_absent (admitted : changes.Admitted base)
    (records : buffer.Records base changes) (absent : changes.shown base key = none) :
    (buffer.tree.children key).result = .error (.nodeNotFound key) :=
  Read.result_bind_of_error (result_require_of_absent admitted records absent)

theorem result_parent_of_absent (admitted : changes.Admitted base)
    (records : buffer.Records base changes) (absent : changes.shown base key = none) :
    (buffer.tree.parent key).result = .error (.nodeNotFound key) :=
  Read.result_bind_of_error (result_require_of_absent admitted records absent)

/-- What is shown is either an overlay node with content or read from the base. -/
theorem shown_cases (admitted : changes.Admitted base) (holds : (changes.shown base).Holds key) :
    changes.overlay.Holds key ∧ ¬ changes.IsLazy key ∨
      changes.ReadsBack key ∧ base.layout.Holds key := by
  rcases Changes.holds_shown_cases holds with inside | ⟨absent, kept, there⟩
  · by_cases isLazy : changes.IsLazy key
    · obtain ⟨above, reference, found⟩ := isLazy
      exact .inr ⟨.inl ⟨above, reference, found⟩, (admitted key _ found).2⟩
    · exact .inl ⟨inside, isLazy⟩
  · exact .inr ⟨.inr ⟨absent, kept⟩, there⟩

theorem childList_of_overlay (admitted : changes.Admitted base) (records : buffer.Records base changes)
    (holds : changes.overlay.Holds key) (notLazy : ¬ changes.IsLazy key) :
    buffer.tree.childList key = buffer.overlay.tree.childList key := by
  rw [Tree.childList, result_children_of_overlay admitted records holds notLazy]

theorem childList_of_readsBack (wellFormed : base.WellFormed) (admitted : changes.Admitted base)
    (records : buffer.Records base changes) (readsBack : changes.ReadsBack key)
    (holds : base.layout.Holds key) : buffer.tree.childList key =
      (base.tree.childList key).filter fun child => !buffer.deleted.contains child := by
  rw [Tree.childList, result_children_of_readsBack wellFormed admitted records readsBack holds]

theorem childList_of_absent (admitted : changes.Admitted base) (records : buffer.Records base changes)
    (absent : changes.shown base key = none) : buffer.tree.childList key = [] := by
  rw [Tree.childList, result_children_of_absent admitted records absent]

theorem mem_overlay_childList (records : buffer.Records base changes) {child : Key} :
    child ∈ buffer.overlay.tree.childList key ↔ changes.overlay.IsChild child key := by
  rw [records.wellFormed.listed.mem_iff, records.overlay]

theorem mem_kept_childList (wellFormed : base.WellFormed) (records : buffer.Records base changes)
    {child : Key} :
    child ∈ (base.tree.childList key).filter (fun child => !buffer.deleted.contains child) ↔
      base.layout.IsChild child key ∧ ¬ changes.deleted child := by
  rw [List.mem_filter, wellFormed.listed.mem_iff, ← records.contains_deleted, Bool.not_eq_true',
    Bool.not_eq_true]

end Buffer

end VersionedTrees
