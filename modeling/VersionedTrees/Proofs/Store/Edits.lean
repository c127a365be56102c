import VersionedTrees.Proofs.Layout.Changes
import VersionedTrees.Proofs.Store.Layout
import VersionedTrees.Proofs.Store.Pending

/-!
# What the edits of a store do to its layout

An edit of a store that succeeds places one node, prunes one subtree or empties the layout, and it
keeps the store well-formed (`Store.Becomes`). For each edit there is one statement for each way in
which it can end, and together they cover all cases.
-/

namespace VersionedTrees

namespace Store

variable {C : Type} {store next : Store C} {layout : Layout C} {key parent previous root : Key}
  {payload old : Payload C} {above : Option Key} {slot : Slot C}

/-- A store is well-formed and has a given layout, with identifier and fresh keys of an earlier
store. -/
structure Becomes (store : Store C) (layout : Layout C) (next : Store C) : Prop where
  wellFormed : next.WellFormed
  layout_eq : next.layout = layout
  id_eq : next.id = store.id
  supply_eq : next.supply = store.supply

theorem mem_insert_iff {keys : KeySet} {key other : Key} :
    other ∈ keys.insert key ↔ key = other ∨ other ∈ keys := by
  rw [Std.TreeSet.mem_insert, Std.compare_eq_iff_eq]

theorem mem_erase_iff {keys : KeySet} {key other : Key} :
    other ∈ keys.erase key ↔ key ≠ other ∧ other ∈ keys := by
  rw [Std.TreeSet.mem_erase, Ne, Std.compare_eq_iff_eq]

/-! ## Payloads -/

theorem slot?_changePayload (store : Store C) (key other : Key) (payload : Payload C) :
    (store.changeSlot key fun slot => { slot with payload }).advance.slot? other =
      (store.slot? other).map fun slot =>
        { slot with payload := if key = other then payload else slot.payload } := by
  rw [slot?_advance, slot?_changeSlot]
  by_cases same : key = other
  · rw [if_pos same]
    simp only [if_pos same]
  · rw [if_neg same]
    simp only [if_neg same]
    exact Option.map_id'.symm

/-- A new payload leaves the links as they are. -/
theorem WellFormed.changePayload (wellFormed : store.WellFormed)
    (found : store.layout key = some ⟨above, old⟩) :
    store.Becomes (store.layout.place key ⟨above, payload⟩)
      (store.changeSlot key fun slot => { slot with payload }).advance := by
  have layout_eq : (store.changeSlot key fun slot => { slot with payload }).advance.layout =
      store.layout.place key ⟨above, payload⟩ := by
    funext other
    rw [Store.layout, slot?_changePayload, Option.map_map, Layout.place_eq]
    by_cases same : key = other
    · subst same
      obtain ⟨slot, there⟩ := holds_layout_iff.mp ⟨_, found⟩
      rw [layout_of_slot? there, Option.some.injEq, Standing.mk.injEq] at found
      rw [there, if_pos rfl, ← found.1]
      simp
    · rw [if_neg same]
      simp [Store.layout, same, Function.comp_def]
  have same : store.layout.SameParents (store.layout.place key ⟨above, payload⟩) :=
    Layout.sameParents_place found
  refine ⟨⟨?_, ?_, ?_⟩, layout_eq, rfl, rfl⟩
  · rw [layout_eq]
    exact same.isTree wellFormed.isTree
  · intro key
    rw [layout_eq, ← same.isRoot_iff]
    exact wellFormed.root key
  · intro key slot there child
    rw [slot?_changePayload] at there
    obtain ⟨before, foundBefore, rfl⟩ := Option.map_eq_some_iff.mp there
    rw [layout_eq, ← same.isChild_iff]
    exact wellFormed.children key before foundBefore child

/-- An update of a key that is there places its new payload. -/
theorem WellFormed.update (wellFormed : store.WellFormed)
    (found : store.layout key = some ⟨above, old⟩) (payload : Payload C) :
    ∃ next, store.update key payload = .ok next ∧
      store.Becomes (store.layout.place key ⟨above, payload⟩) next := by
  refine ⟨_, ?_, wellFormed.changePayload found⟩
  rw [Store.update, if_pos (contains_iff_holds.mpr ⟨_, found⟩)]

theorem update_of_absent (absent : store.layout key = none) (payload : Payload C) :
    store.update key payload = .error (.nodeNotFound key) := by
  rw [Store.update, contains_eq_false_iff.mpr absent]
  rfl

/-! ## Roots -/

/-- A root is placed in an empty store. -/
theorem WellFormed.putRoot_of_empty (wellFormed : store.WellFormed) (none : store.root = none)
    (key : Key) (payload : Payload C) :
    ∃ next, store.putRoot key payload = .ok next ∧
      store.Becomes (store.layout.place key ⟨.none, payload⟩) next := by
  have empty := wellFormed.layout_of_no_root none
  let next := { store.putSlot key ⟨payload, .none, ∅⟩ with root := some key }.advance
  have slot?_next : ∀ other, next.slot? other =
      if key = other then some ⟨payload, .none, ∅⟩ else .none := by
    intro other
    change (store.putSlot key _).slot? other = _
    rw [slot?_putSlot, layout_eq_none_iff.mp (empty other)]
  have layout_eq : next.layout = store.layout.place key ⟨.none, payload⟩ := by
    funext other
    rw [Store.layout, slot?_next, Layout.place_eq, empty]
    split <;> rfl
  have isTree : (store.layout.place key ⟨.none, payload⟩).IsTree := Layout.isTree_place_root empty
  have isRoot : (store.layout.place key ⟨.none, payload⟩).IsRoot key :=
    ⟨payload, Layout.place_self _ _ _⟩
  refine ⟨next, ?_, ⟨?_, ?_, ?_⟩, layout_eq, rfl, rfl⟩
  · rw [putRoot, none, contains_eq_false_iff.mpr (empty key)]
    rfl
  · rw [layout_eq]
    exact isTree
  · intro other
    rw [layout_eq]
    constructor
    · intro same
      obtain rfl : key = other := Option.some.inj same
      exact isRoot
    · exact fun isRoot' => congrArg some (isTree.single key other isRoot isRoot')
  · intro other slot found child
    rw [slot?_next] at found
    split at found
    · obtain rfl := Option.some.inj found
      refine ⟨fun inside => absurd inside Std.TreeSet.not_mem_emptyc, fun isChild => ?_⟩
      rw [layout_eq] at isChild
      obtain ⟨payload', there⟩ := isChild
      rw [Layout.place_eq, empty] at there
      split at there <;> cases there
    · cases found

/-- The root takes a new payload. -/
theorem WellFormed.putRoot_of_root (wellFormed : store.WellFormed) (isRoot : store.layout.IsRoot key)
    (payload : Payload C) :
    ∃ next, store.putRoot key payload = .ok next ∧
      store.Becomes (store.layout.place key ⟨.none, payload⟩) next := by
  obtain ⟨old, found⟩ := isRoot
  refine ⟨_, ?_, wellFormed.changePayload found⟩
  rw [putRoot, (wellFormed.root key).mpr ⟨old, found⟩]
  exact if_pos rfl

/-- There is no second root. -/
theorem WellFormed.putRoot_of_other (wellFormed : store.WellFormed)
    (isRoot : store.layout.IsRoot root) (different : root ≠ key) (payload : Payload C) :
    store.putRoot key payload = .error (.shape (.secondRoot key root)) := by
  rw [putRoot, (wellFormed.root root).mpr isRoot]
  exact if_neg different

/-- In a well-formed store no key is in the way of a root that it does not have yet. -/
theorem WellFormed.putRoot_ne_storedWithoutRoot (wellFormed : store.WellFormed) (key other : Key)
    (payload : Payload C) : store.putRoot key payload ≠ .error (.shape (.storedWithoutRoot other)) := by
  cases there : store.root with
  | none =>
      obtain ⟨next, ok, -⟩ := wellFormed.putRoot_of_empty there key payload
      rw [ok]
      exact nofun
  | some root =>
      have isRoot := (wellFormed.root root).mp there
      by_cases same : root = key
      · subst same
        obtain ⟨next, ok, -⟩ := wellFormed.putRoot_of_root isRoot payload
        rw [ok]
        exact nofun
      · rw [wellFormed.putRoot_of_other isRoot same]
        exact nofun

/-! ## Nodes below a parent -/

/-- A new node is placed below its parent. -/
theorem WellFormed.putBelow_of_new (wellFormed : store.WellFormed)
    (holds : store.layout.Holds parent) (new : store.layout key = none) (payload : Payload C) :
    ∃ next, store.putBelow parent key payload = .ok next ∧
      store.Becomes (store.layout.place key ⟨some parent, payload⟩) next := by
  let next := ((store.putSlot key ⟨payload, some parent, ∅⟩).attach parent key).advance
  have different : parent ≠ key := by
    rintro rfl
    exact Layout.not_holds_iff.mpr new holds
  have absent := layout_eq_none_iff.mp new
  have slot?_next : ∀ other, next.slot? other =
      if key = other then some ⟨payload, some parent, ∅⟩
      else (store.slot? other).map fun slot =>
        if parent = other then { slot with children := slot.children.insert key } else slot := by
    intro other
    rw [slot?_advance, slot?_attach, slot?_putSlot]
    by_cases same : key = other
    · subst same
      rw [if_neg different, if_pos rfl, if_pos rfl]
    · rw [if_neg same, if_neg same]
      by_cases below : parent = other
      · simp only [if_pos below]
      · simp only [if_neg below]
        exact Option.map_id'.symm
  have layout_eq : next.layout = store.layout.place key ⟨some parent, payload⟩ := by
    funext other
    rw [Store.layout, slot?_next, Layout.place_eq]
    split
    · rfl
    · rw [Option.map_map, Store.layout]
      congr 1
      funext slot
      rw [Function.comp_apply]
      split <;> rfl
  have isTree : (store.layout.place key ⟨some parent, payload⟩).IsTree :=
    wellFormed.isTree.place_below holds
      fun within => Layout.not_holds_iff.mpr new within.top_holds
  refine ⟨next, ?_, ⟨?_, ?_, ?_⟩, layout_eq, rfl, rfl⟩
  · rw [putBelow, absent]
  · rw [layout_eq]
    exact isTree
  · intro other
    rw [layout_eq, Layout.isRoot_place_iff, ← wellFormed.root other]
    refine (and_iff_right_of_imp fun root => ?_).symm
    rintro rfl
    exact Layout.not_holds_iff.mpr new ((wellFormed.root key).mp root).holds
  · intro other slot found child
    rw [slot?_next] at found
    rw [layout_eq, Layout.isChild_place_iff]
    split at found
    case isTrue same =>
      -- below the new key there is nothing
      subst same
      obtain rfl := Option.some.inj found
      refine ⟨fun inside => absurd inside Std.TreeSet.not_mem_emptyc, fun isChild => ?_⟩
      split at isChild
      · exact absurd isChild different
      · exact absurd (wellFormed.isTree.parent_holds isChild) (Layout.not_holds_iff.mpr new)
    case isFalse apart =>
      obtain ⟨before, foundBefore, rfl⟩ := Option.map_eq_some_iff.mp found
      have children := wellFormed.children other before foundBefore child
      by_cases below : parent = other
      · rw [if_pos below, mem_insert_iff, children]
        by_cases same : key = child
        · simp [same, below]
        · simp [same]
      · rw [if_neg below, children]
        by_cases same : key = child
        · subst same
          rw [if_pos rfl]
          refine ⟨fun isChild => absurd isChild.holds (Layout.not_holds_iff.mpr new),
            fun same => absurd same below⟩
        · rw [if_neg same]

/-- A node is moved, with what is below it, to a parent that is not below it. -/
theorem WellFormed.putBelow_of_outside (wellFormed : store.WellFormed)
    (isChild : store.layout.IsChild key previous) (holds : store.layout.Holds parent)
    (outside : ¬ store.layout.Within key parent) (payload : Payload C) :
    ∃ next, store.putBelow parent key payload = .ok next ∧
      store.Becomes (store.layout.place key ⟨some parent, payload⟩) next := by
  obtain ⟨slot, found⟩ := holds_layout_iff.mp isChild.holds
  have parent_eq : slot.parent = some previous := by
    obtain ⟨old, same⟩ := isChild
    rw [layout_of_slot? found, Option.some.injEq, Standing.mk.injEq] at same
    exact same.1
  let next := (((store.detach previous key).changeSlot key fun slot =>
    { slot with payload, parent := some parent }).attach parent key).advance
  have different : parent ≠ key := by
    rintro rfl
    exact outside (wellFormed.isTree.within_self holds)
  have apart : previous ≠ key := by
    rintro rfl
    exact isChild.not_within wellFormed.isTree (wellFormed.isTree.within_self isChild.holds)
  have slot?_next : ∀ other, next.slot? other = (store.slot? other).map fun slot =>
      ⟨if key = other then payload else slot.payload,
        if key = other then some parent else slot.parent,
        let left := if previous = other then slot.children.erase key else slot.children
        if parent = other then left.insert key else left⟩ := by
    intro other
    rw [slot?_advance, slot?_attach, slot?_changeSlot, slot?_detach]
    by_cases same : key = other
    · subst same
      simp [different, apart]
    · by_cases below : parent = other <;> by_cases above : previous = other <;>
        simp [same, below, above, Function.comp_def]
  have layout_eq : next.layout = store.layout.place key ⟨some parent, payload⟩ := by
    funext other
    rw [Store.layout, slot?_next, Option.map_map, Layout.place_eq]
    by_cases same : key = other
    · subst same
      rw [if_pos rfl, found]
      simp
    · rw [if_neg same]
      simp [Store.layout, same, Function.comp_def]
  refine ⟨next, ?_, ⟨?_, ?_, ?_⟩, layout_eq, rfl, rfl⟩
  · obtain ⟨old, _, children⟩ := slot
    subst parent_eq
    rw [putBelow, found]
    exact if_neg fun inside => outside ((mem_lineage_iff wellFormed.isTree holds).mp inside)
  · rw [layout_eq]
    exact wellFormed.isTree.place_below holds outside
  · intro other
    rw [layout_eq, Layout.isRoot_place_iff, ← wellFormed.root other]
    refine (and_iff_right_of_imp fun root => ?_).symm
    rintro rfl
    exact ((wellFormed.root key).mp root).not_isChild isChild
  · intro other slot' found' child
    rw [slot?_next] at found'
    obtain ⟨before, foundBefore, rfl⟩ := Option.map_eq_some_iff.mp found'
    have children := wellFormed.children other before foundBefore child
    have left : child ∈ (if previous = other then before.children.erase key else before.children) ↔
        key ≠ child ∧ store.layout.IsChild child other := by
      split
      case isTrue => rw [mem_erase_iff, children]
      case isFalse elsewhere =>
        rw [children]
        refine (and_iff_right_of_imp fun isChild' => ?_).symm
        rintro rfl
        exact elsewhere (isChild.parent_unique isChild')
    rw [layout_eq, Layout.isChild_place_iff]
    by_cases below : parent = other
    · simp only [if_pos below, mem_insert_iff, left]
      by_cases same : key = child
      · simp [same, below]
      · simp [same]
    · simp only [if_neg below, left]
      by_cases same : key = child
      · simp [same, below]
      · simp [same]

/-- The root is not moved below another node. -/
theorem putBelow_of_root (isRoot : store.layout.IsRoot key) (parent : Key)
    (payload : Payload C) :
    store.putBelow parent key payload = .error (.shape (.rootBelow key parent)) := by
  obtain ⟨⟨old, above, children⟩, found⟩ := holds_layout_iff.mp isRoot.holds
  obtain ⟨_, same⟩ := isRoot
  rw [layout_of_slot? found, Option.some.injEq, Standing.mk.injEq] at same
  obtain ⟨rfl, -⟩ := same
  rw [putBelow, found]

/-- A node is not moved below itself. -/
theorem WellFormed.putBelow_of_within (wellFormed : store.WellFormed)
    (isChild : store.layout.IsChild key previous) (within : store.layout.Within key parent)
    (payload : Payload C) :
    store.putBelow parent key payload = .error (.shape (.belowItself key parent)) := by
  obtain ⟨⟨old, above, children⟩, found⟩ := holds_layout_iff.mp isChild.holds
  obtain ⟨_, same⟩ := isChild
  rw [layout_of_slot? found, Option.some.injEq, Standing.mk.injEq] at same
  obtain ⟨rfl, -⟩ := same
  rw [putBelow, found]
  exact if_pos ((mem_lineage_iff wellFormed.isTree within.holds).mpr within)

/-! ## Deletions -/

/-- A slot without a link to a child that is taken out. -/
def unlinkSlot (parent : Option Key) (key other : Key) (slot : Slot C) : Slot C :=
  if parent = some other then { slot with children := slot.children.erase key } else slot

theorem unlinkSlot_of_ne {other : Key} (different : above ≠ some other) :
    unlinkSlot (C := C) above key other = fun slot => slot :=
  funext fun _ => if_neg different

/-- Without the link to a node, all slots but the one of its parent are as they were. -/
theorem slot?_unlink (store : Store C) (key : Key) (above : Option Key) (other : Key) :
    (store.unlink key above).slot? other = (store.slot? other).map (unlinkSlot above key other) := by
  cases above with
  | none =>
      rw [unlinkSlot_of_ne (Option.some_ne_none other).symm, Option.map_id']
      rfl
  | some parent =>
      rw [unlink, slot?_detach]
      by_cases same : parent = other
      · subst same
        rw [if_pos rfl]
        congr 1
        funext slot
        exact (if_pos rfl).symm
      · rw [if_neg same, unlinkSlot_of_ne fun equal => same (Option.some.inj equal), Option.map_id']

theorem holds_iff_mem_unlink (key : Key) (above : Option Key) {other : Key} :
    store.layout.Holds other ↔ other ∈ (store.unlink key above).slots := by
  have unlinked := slot?_unlink store key above other
  rw [slot?] at unlinked
  rw [Std.TreeMap.mem_iff_isSome_getElem?, unlinked, Option.isSome_map, Option.isSome_iff_exists,
    holds_layout_iff]

/-- Once the link to a node is taken out, the children of each node are those it has, but for that one. -/
theorem WellFormed.mem_children_unlink_iff (wellFormed : store.WellFormed) {child : Key}
    (found : (store.unlink key above).slot? parent = some slot) :
    child ∈ slot.children ↔ store.layout.IsChild child parent ∧ ¬ (above = some parent ∧ key = child) := by
  rw [slot?_unlink, Option.map_eq_some_iff] at found
  obtain ⟨before, there, rfl⟩ := found
  rw [← wellFormed.children parent before there child, unlinkSlot]
  by_cases same : above = some parent
  · rw [if_pos same, mem_erase_iff, and_comm, and_iff_right same]
  · rw [if_neg same, and_iff_left fun both => same both.1]

/-- Once the link to a node is taken out, what pends with its key is the subtree of the key. -/
theorem WellFormed.pends_iff_within (wellFormed : store.WellFormed) (holds : store.layout.Holds key)
    (above : Option Key) {other : Key} :
    Pends (store.unlink key above).slots [key] other ↔ store.layout.Within key other := by
  constructor
  · intro pends
    induction pends with
    | listed inside _ =>
        obtain rfl := List.mem_singleton.mp inside
        exact wellFormed.isTree.within_self holds
    | child _ found inside _ within =>
        exact ((wellFormed.mem_children_unlink_iff found).mp inside).1.within within
  · intro within
    refine wellFormed.isTree.induction (motive := fun other => store.layout.Within key other →
      Pends (store.unlink key above).slots [key] other) other within.holds ?_ ?_ within
    · intro root isRoot within
      obtain rfl := isRoot.within_iff.mp within
      exact .listed List.mem_cons_self ((holds_iff_mem_unlink key above).mp isRoot.holds)
    · intro child parent isChild holdsParent inductionHypothesis within
      have there := (holds_iff_mem_unlink key above).mp isChild.holds
      rcases (Layout.within_iff_of_isChild isChild wellFormed.isTree).mp within with rfl | higher
      · exact .listed List.mem_cons_self there
      · obtain ⟨slot, found⟩ := Option.isSome_iff_exists.mp
          (Std.TreeMap.mem_iff_isSome_getElem?.mp ((holds_iff_mem_unlink key above).mp holdsParent))
        refine .child (inductionHypothesis higher) found
          ((wellFormed.mem_children_unlink_iff found).mpr ⟨isChild, ?_⟩) there
        -- the key itself is not below its parent
        rintro ⟨-, rfl⟩
        exact isChild.not_within wellFormed.isTree higher

open Classical in
/-- A deletion takes out the subtree of its key and the link to it, and leaves all other slots. -/
theorem WellFormed.delete_slots (wellFormed : store.WellFormed) (found : store.slot? key = some slot) :
    ∃ next, store.delete key = .ok next ∧ next.id = store.id ∧ next.supply = store.supply ∧
      next.root = (if slot.parent.isSome then store.root else none) ∧
      ∀ other, next.slot? other = if store.layout.Within key other then none
        else (store.slot? other).map (unlinkSlot slot.parent key other) := by
  have slots : ∀ other, (withoutPending (store.unlink key slot.parent).size [key]
      (store.unlink key slot.parent).slots)[other]? = if store.layout.Within key other then none
        else (store.slot? other).map (unlinkSlot slot.parent key other) := by
    intro other
    rw [size, getElem?_withoutPending (Nat.le_refl _), ← slot?_unlink]
    simp only [wellFormed.pends_iff_within (holds_layout_iff.mpr ⟨slot, found⟩)]
    rfl
  rw [Store.delete, Store.slot, found]
  obtain ⟨payload, _ | parent, children⟩ := slot
  · exact ⟨_, rfl, rfl, rfl, rfl, slots⟩
  · exact ⟨_, rfl, rfl, rfl, rfl, slots⟩

open Classical in
/-- Without the slots of a subtree, the subtree is pruned. -/
theorem layout_of_pruned_slots
    (slots : ∀ other, next.slot? other = if store.layout.Within key other then none
      else (store.slot? other).map (unlinkSlot above key other)) :
    next.layout = store.layout.prune key := by
  funext other
  rw [Store.layout, slots]
  by_cases within : store.layout.Within key other
  · rw [Layout.prune_of_within within, if_pos within, Option.map_none]
  · rw [Layout.prune_of_not_within within, if_neg within, Option.map_map, Store.layout]
    congr 1
    funext slot
    rw [Function.comp_apply, unlinkSlot]
    split <;> rfl

/-- A deletion prunes the subtree of its key. -/
theorem WellFormed.delete (wellFormed : store.WellFormed) (holds : store.layout.Holds key) :
    ∃ next, store.delete key = .ok next ∧ store.Becomes (store.layout.prune key) next := by
  obtain ⟨slot, found⟩ := holds_layout_iff.mp holds
  obtain ⟨next, ok, id_eq, supply_eq, root_eq, slot?_next⟩ := wellFormed.delete_slots found
  have layout_eq := layout_of_pruned_slots slot?_next
  refine ⟨next, ok, ⟨?_, ?_, ?_⟩, layout_eq, id_eq, supply_eq⟩
  · rw [layout_eq]
    exact wellFormed.isTree.prune key
  · intro other
    rw [root_eq, layout_eq, Layout.isRoot_prune_iff, ← wellFormed.root other]
    rcases above : slot.parent with _ | parent
    · -- the root goes with all that is below it
      have isRoot : store.layout.IsRoot key := ⟨slot.payload, by rw [layout_of_slot? found, above]⟩
      refine iff_of_false (fun same => by cases same) ?_
      rintro ⟨root, outside⟩
      obtain rfl := wellFormed.isTree.single key other isRoot ((wellFormed.root other).mp root)
      exact absurd (wellFormed.isTree.within_self holds) outside
    · have isChild : store.layout.IsChild key parent :=
        ⟨slot.payload, by rw [layout_of_slot? found, above]⟩
      refine (and_iff_left_of_imp fun root within => ?_).symm
      have isRoot := (wellFormed.root other).mp root
      obtain rfl := isRoot.within_iff.mp within
      exact isRoot.not_isChild isChild
  · intro other slot' found' child
    rw [slot?_next] at found'
    split at found'
    case isTrue => cases found'
    case isFalse outside =>
      rw [← slot?_unlink] at found'
      rw [wellFormed.mem_children_unlink_iff found', layout_eq, Layout.isChild_prune_iff]
      refine and_congr_right fun isChild => not_congr ?_
      rw [Layout.within_iff_of_isChild isChild wellFormed.isTree, or_iff_left outside]
      refine and_iff_right_of_imp fun same => ?_
      subst same
      obtain ⟨payload, same⟩ := isChild
      rw [layout_of_slot? found, Option.some.injEq, Standing.mk.injEq] at same
      exact same.1

theorem delete_of_absent (absent : store.layout key = none) :
    store.delete key = .error (.nodeNotFound key) := by
  rw [Store.delete, Store.slot, layout_eq_none_iff.mp absent]
  rfl

/-! ## Insertions -/

theorem insert_of_absent (absent : store.layout parent = none) (placement : Placement)
    (payload : Payload C) :
    store.insert (some parent) placement payload = (.error (.nodeNotFound parent), store) := by
  rw [Store.insert, contains_eq_false_iff.mpr absent]
  rfl

/-- An insertion under a key of the caller's choice puts the node there. -/
theorem insert_exactly (holds : store.layout.Holds parent) (key : Key) (payload : Payload C) :
    store.insert (some parent) (.exactly key) payload =
      match store.putBelow parent key payload with
      | .error error => (.error error, store)
      | .ok next => (.ok key, next) := by
  rw [Store.insert, contains_iff_holds.mpr holds]
  rfl

theorem insert_root (store : Store C) (placement : Placement) (payload : Payload C) :
    store.insert none placement payload =
      match store.putRoot placement.rootKey payload with
      | .error error => (.error error, store)
      | .ok next => (.ok placement.rootKey, next) := by
  unfold Store.insert
  rfl

theorem WellFormed.insert_new (wellFormed : store.WellFormed) (holds : store.layout.Holds parent)
    (new : store.layout key = none) (payload : Payload C) :
    ∃ next, store.insert (some parent) (.exactly key) payload = (.ok key, next) ∧
      store.Becomes (store.layout.place key ⟨some parent, payload⟩) next := by
  obtain ⟨next, ok, becomes⟩ := wellFormed.putBelow_of_new holds new payload
  exact ⟨next, by rw [insert_exactly holds, ok], becomes⟩

theorem WellFormed.insert_moved (wellFormed : store.WellFormed)
    (isChild : store.layout.IsChild key previous) (holds : store.layout.Holds parent)
    (outside : ¬ store.layout.Within key parent) (payload : Payload C) :
    ∃ next, store.insert (some parent) (.exactly key) payload = (.ok key, next) ∧
      store.Becomes (store.layout.place key ⟨some parent, payload⟩) next := by
  obtain ⟨next, ok, becomes⟩ := wellFormed.putBelow_of_outside isChild holds outside payload
  exact ⟨next, by rw [insert_exactly holds, ok], becomes⟩

/-- A node is inserted wherever the layout accepts it. -/
theorem WellFormed.insert_accepted (wellFormed : store.WellFormed)
    (accepts : store.layout.Accepts key above) (payload : Payload C) :
    ∃ next, store.insert above (.exactly key) payload = (.ok key, next) ∧
      store.Becomes (store.layout.place key ⟨above, payload⟩) next := by
  cases above with
  | none =>
      have rooted : ∃ next, store.putRoot key payload = .ok next ∧
          store.Becomes (store.layout.place key ⟨none, payload⟩) next := by
        rcases accepts with empty | isRoot
        · exact wellFormed.putRoot_of_empty (wellFormed.root_eq_none empty) key payload
        · exact wellFormed.putRoot_of_root isRoot payload
      obtain ⟨next, put, becomes⟩ := rooted
      refine ⟨next, ?_, becomes⟩
      rw [insert_root, show Placement.rootKey (.exactly key) = key from rfl, put]
  | some parent =>
      by_cases new : store.layout key = none
      · exact wellFormed.insert_new accepts.1 new payload
      · obtain ⟨previous, isChild⟩ :=
          wellFormed.isTree.exists_parent_of_accepts (Layout.holds_iff_ne_none.mpr new) accepts
        exact wellFormed.insert_moved isChild accepts.1 accepts.2 payload

theorem siblings_eq (store : Store C) (parent : Key) (position : PathKey) :
    store.siblings parent position =
      ((store.tree.childList parent).filterMap Key.position?).filter position.isParentOf := by
  cases found : store.slot? parent with
  | none => rw [siblings, found, childList_of_absent found]; rfl
  | some slot => rw [siblings, found, childList_of_slot? found]

/-- An insertion at a place below a parent with a position puts the node under the free position
there. -/
theorem insert_automatic {position : PathKey} (holds : store.layout.Holds parent)
    (positioned : parent.position? = some position) (place : Place) (payload : Payload C) :
    store.insert (some parent) (.automatic place) payload =
      match freePosition parent position (store.siblings parent position) place with
      | .error error => (.error error, store)
      | .ok chosen =>
        if store.contains (.path chosen) then
          (.error (.shape (.positionTaken (.path chosen))), store)
        else
          match store.putBelow parent (.path chosen) payload with
          | .error error => (.error error, store)
          | .ok next => (.ok (.path chosen), next) := by
  rw [Store.insert, contains_iff_holds.mpr holds, if_pos rfl, allocate, positioned]
  simp only [choosePosition]
  cases freePosition parent position (store.siblings parent position) place with
  | error _ => rfl
  | ok chosen =>
      cases taken : store.contains (.path chosen) with
      | true => simp only [taken, bind, Except.bind, Except.map, if_true]
      | false =>
          obtain ⟨id, root, slots, supply, generation⟩ := store
          cases placed : Store.putBelow ⟨id, root, slots, supply, generation⟩ parent (.path chosen)
              payload with
          | error fault =>
              simp only [taken, placed, bind, Except.bind, Except.map, Bool.false_eq_true, if_false]
          | ok next =>
              simp only [taken, placed, bind, Except.bind, Except.map, Bool.false_eq_true, if_false]

/-- After an insertion below a parent that succeeds, the parent was there, a key was chosen and the node was
put under it. -/
theorem chosen_of_insert {placement : Placement} {next : Store C}
    (ok : store.insert (some parent) placement payload = (.ok key, next)) :
    store.layout.Holds parent ∧ ∃ supply, store.allocate parent placement = .ok (key, supply) ∧
      ({ store with supply } : Store C).putBelow parent key payload = .ok next := by
  by_cases there : store.contains parent = true
  case neg =>
    rw [Store.insert, if_neg there] at ok
    cases ok
  case pos =>
    refine ⟨contains_iff_holds.mp there, ?_⟩
    rw [Store.insert, if_pos there] at ok
    cases chosen : store.allocate parent placement with
    | error _ =>
        rw [chosen] at ok
        cases ok
    | ok drawn =>
        obtain ⟨other, supply⟩ := drawn
        rw [chosen] at ok
        simp only at ok
        cases put : ({ store with supply } : Store C).putBelow parent other payload with
        | error _ =>
            rw [put] at ok
            cases ok
        | ok after =>
            rw [put] at ok
            cases ok
            exact ⟨supply, rfl, put⟩

/-- An insertion without a parent that succeeds puts the node at the root, under the key that it tells. -/
theorem put_of_insert_root {placement : Placement}
    (ok : store.insert none placement payload = (.ok key, next)) :
    placement.rootKey = key ∧ store.putRoot key payload = .ok next := by
  rw [insert_root] at ok
  cases put : store.putRoot placement.rootKey payload with
  | error _ =>
      rw [put] at ok
      cases ok
  | ok after =>
      rw [put] at ok
      cases ok
      exact ⟨rfl, put⟩

/-! ## Emptying -/

theorem layout_empty (id : TreeId) (supply : KeySupply) (key : Key) :
    (empty id supply : Store C).layout key = none :=
  layout_eq_none_iff.mpr (slot?_empty id supply key)

theorem wellFormed_empty (id : TreeId) (supply : KeySupply) :
    (empty id supply : Store C).WellFormed where
  isTree :=
    ⟨fun key ⟨_, found⟩ => by simp [layout_empty] at found,
      fun left _ ⟨_, found⟩ => by simp [layout_empty] at found⟩
  root key :=
    ⟨fun root => (nomatch root), fun ⟨_, found⟩ => by simp [layout_empty] at found⟩
  children key slot found := by simp [slot?_empty] at found

/-- A cleared store has no nodes. -/
theorem becomes_clear (store : Store C) : store.Becomes (fun _ => none) store.clear := by
  have layout_eq : store.clear.layout = fun _ => none := by
    funext key
    rw [layout_eq_none_iff, slot?_clear]
  refine ⟨⟨?_, ?_, ?_⟩, layout_eq, rfl, rfl⟩
  · rw [layout_eq]
    exact ⟨fun key ⟨_, found⟩ => (nomatch found), fun left _ ⟨_, found⟩ => (nomatch found)⟩
  · intro key
    rw [layout_eq]
    exact ⟨fun root => (nomatch root), fun ⟨_, found⟩ => (nomatch found)⟩
  · intro key slot found
    rw [slot?_clear] at found
    cases found

end Store

end VersionedTrees
