import VersionedTrees.Proofs.Key.Labels
import VersionedTrees.Proofs.Layout.Reads
import VersionedTrees.Store.Lemmas

/-!
# The layout of a store

A store keeps each link twice: a slot names its parent, and the parent's slot names it among the
children. `Store.WellFormed` says that both agree, that the root is the one slot without a parent,
and that the parents make a tree. Then the layout of the store, which leaves out the children, is all
there is to know: `Store.WellFormed.shows` answers every read by it, and `mem_lineage_iff` says what
the way up from a key is.
-/

namespace VersionedTrees

namespace Store

variable {C : Type}

/-- What stands under each key of a store. -/
def layout (store : Store C) : Layout C := fun key =>
  (store.slot? key).map fun slot => ⟨slot.parent, slot.payload⟩

/-- The links of a store agree and make a tree. -/
structure WellFormed (store : Store C) : Prop where
  isTree : store.layout.IsTree
  root : ∀ key, store.root = some key ↔ store.layout.IsRoot key
  children : ∀ key slot, store.slot? key = some slot →
    ∀ child, child ∈ slot.children ↔ store.layout.IsChild child key

variable {store : Store C} {key parent top : Key} {slot : Slot C} {line : List Key}

theorem layout_of_slot? (found : store.slot? key = some slot) :
    store.layout key = some ⟨slot.parent, slot.payload⟩ := by
  rw [layout, found]
  rfl

theorem layout_eq_none_iff : store.layout key = none ↔ store.slot? key = none := by
  rw [layout, Option.map_eq_none_iff]

theorem holds_layout_iff : store.layout.Holds key ↔ ∃ slot, store.slot? key = some slot := by
  rw [Layout.holds_iff_isSome, layout, Option.isSome_map, Option.isSome_iff_exists]

theorem contains_iff_holds : store.contains key = true ↔ store.layout.Holds key := by
  rw [contains_eq_isSome_slot?, Layout.holds_iff_isSome, layout, Option.isSome_map]

theorem contains_eq_false_iff : store.contains key = false ↔ store.layout key = none := by
  rw [contains_eq_isSome_slot?, layout_eq_none_iff, Option.isSome_eq_false_iff,
    Option.isNone_iff_eq_none]

theorem payload?_eq (store : Store C) (key : Key) :
    store.payload? key = (store.layout key).map (·.payload) := by
  rw [payload?, layout, Option.map_map]
  rfl

theorem payload?_of_layout {standing : Standing C} (found : store.layout key = some standing) :
    store.payload? key = some standing.payload := by
  rw [payload?_eq, found]
  rfl

theorem holds_of_payload? {payload : Payload C} (found : store.payload? key = some payload) :
    store.layout.Holds key := by
  rw [payload?_eq, Option.map_eq_some_iff] at found
  obtain ⟨standing, found, -⟩ := found
  exact ⟨standing, found⟩

theorem mem_keys_iff : key ∈ store.keys ↔ store.layout.Holds key := by
  rw [← contains_iff_holds, keys, Std.TreeMap.mem_keys, contains, Std.TreeMap.contains_iff_mem]

theorem length_keys (store : Store C) : store.keys.length = store.size :=
  Std.TreeMap.length_keys

theorem isEmpty_iff : store.isEmpty = true ↔ ∀ key, store.layout key = none := by
  rw [isEmpty, Std.TreeMap.isEmpty_iff_forall_contains]
  exact forall_congr' fun key => contains_eq_false_iff

/-- A store without a root is empty. -/
theorem WellFormed.layout_of_no_root (wellFormed : store.WellFormed) (none : store.root = none)
    (key : Key) : store.layout key = .none := by
  rw [← Layout.not_holds_iff]
  intro holds
  obtain ⟨root, isRoot, -⟩ := wellFormed.isTree.exists_root holds
  rw [← wellFormed.root, none] at isRoot
  cases isRoot

/-- An empty store has no root. -/
theorem WellFormed.root_eq_none (wellFormed : store.WellFormed)
    (empty : ∀ key, store.layout key = none) : store.root = none := by
  rw [Option.eq_none_iff_forall_ne_some]
  intro root found
  exact Layout.holds_iff_ne_none.mp ((wellFormed.root root).mp found).holds (empty root)

/-! ## Lineages -/

/-- Enough steps lead all the way up. -/
theorem lineageWithin_eq {levels : Nat} (isLine : store.layout.Line key line)
    (enough : line.length ≤ levels + 1) : store.lineageWithin levels key = line := by
  induction isLine generalizing levels with
  | @root key isRoot =>
      obtain ⟨slot, found⟩ := holds_layout_iff.mp isRoot.holds
      obtain ⟨payload, same⟩ := isRoot
      rw [layout_of_slot? found, Option.some.injEq, Standing.mk.injEq] at same
      cases levels with
      | zero => rfl
      | succ levels => rw [lineageWithin, found, Option.bind_some, same.1]
  | @child key parent line isChild above inductionHypothesis =>
      obtain ⟨slot, found⟩ := holds_layout_iff.mp isChild.holds
      obtain ⟨payload, same⟩ := isChild
      rw [layout_of_slot? found, Option.some.injEq, Standing.mk.injEq] at same
      obtain ⟨rest, rfl⟩ := above.eq_cons
      rw [List.length_cons, List.length_cons] at enough
      obtain ⟨levels, rfl⟩ : ∃ rest, levels = rest + 1 := ⟨levels - 1, by omega⟩
      have higher := @inductionHypothesis levels (by rw [List.length_cons]; omega)
      rw [lineageWithin, found, Option.bind_some, same.1, ← higher]

/-- The lineage of a key is its line. -/
theorem lineage_eq (isLine : store.layout.Line key line) : store.lineage key = line := by
  refine lineageWithin_eq isLine (Nat.le_succ_of_le ?_)
  rw [← length_keys]
  exact isLine.length_le fun key => mem_keys_iff.mpr

/-- A key is in the lineages of the keys in its subtree. -/
theorem mem_lineage_iff (isTree : store.layout.IsTree) (holds : store.layout.Holds key) :
    top ∈ store.lineage key ↔ store.layout.Within top key := by
  obtain ⟨line, isLine⟩ := isTree.rooted key holds
  rw [lineage_eq isLine]
  refine ⟨isLine.within, ?_⟩
  rintro ⟨line', isLine', inside⟩
  rwa [isLine.unique isLine']

/-! ## Reads -/

/-- No line is longer than the store has keys. -/
theorem depthAtMost_size (store : Store C) : store.layout.DepthAtMost store.size := by
  intro key line isLine
  rw [← length_keys]
  exact isLine.length_le fun key => mem_keys_iff.mpr

theorem result_children_of_slot? (found : store.slot? key = some slot) :
    (store.tree.children key).result = .ok slot.children.toList := by
  change (store.slot key).map _ = _
  rw [Store.slot, found]
  rfl

theorem result_children_of_absent (absent : store.slot? key = none) :
    (store.tree.children key).result = .error (.nodeNotFound key) := by
  change (store.slot key).map _ = _
  rw [Store.slot, absent]
  rfl

theorem childList_of_slot? (found : store.slot? key = some slot) :
    store.tree.childList key = slot.children.toList := by
  rw [Tree.childList, result_children_of_slot? found]

theorem childList_of_absent (absent : store.slot? key = none) : store.tree.childList key = [] := by
  rw [Tree.childList, result_children_of_absent absent]

/-- The children of a node are told without events. -/
theorem children_eq_pure (holds : store.layout.Holds key) :
    store.tree.children key = pure (store.tree.childList key) := by
  obtain ⟨slot, found⟩ := holds_layout_iff.mp holds
  rw [childList_of_slot? found]
  change Read.ofExcept ((store.slot key).map _) = _
  rw [Store.slot, found]
  rfl

/-- The children of a key are the keys that name it as their parent. -/
theorem WellFormed.listed (wellFormed : store.WellFormed) :
    store.layout.ListedBy store.tree.childList where
  ordered key := by
    cases found : store.slot? key with
    | none =>
        rw [childList_of_absent found]
        exact List.Pairwise.nil
    | some slot =>
        rw [childList_of_slot? found]
        exact Std.TreeSet.ordered_toList
  mem_iff key child := by
    cases found : store.slot? key with
    | none =>
        rw [childList_of_absent found]
        refine ⟨fun inside => absurd inside List.not_mem_nil, fun isChild => ?_⟩
        have absent := layout_eq_none_iff.mpr found
        exact absurd (wellFormed.isTree.parent_holds isChild) (Layout.not_holds_iff.mpr absent)
    | some slot =>
        rw [childList_of_slot? found, Std.TreeSet.mem_toList, wellFormed.children key slot found]

theorem node?_eq (store : Store C) (key : Key) :
    store.node? key = (store.layout key).map fun standing => ⟨key, standing.payload⟩ := by
  rw [node?, payload?_eq, Option.map_map]
  rfl

/-- Every read of a store is answered by its layout. -/
theorem WellFormed.shows (wellFormed : store.WellFormed) : store.tree.Shows store.layout where
  isTree := wellFormed.isTree
  depth := store.depthAtMost_size
  listed := wellFormed.listed
  root := by
    refine ⟨store.root, rfl, ?_, wellFormed.root⟩
    change Except.ok (store.root.bind store.node?) = _
    congr 2
    funext key
    exact store.node?_eq key
  node key := by rw [← node?_eq]; rfl
  contains key := by
    rw [layout, Option.isSome_map, ← contains_eq_isSome_slot?]
    rfl
  parent key := by
    change (store.slot key).map _ = _
    cases found : store.slot? key with
    | none =>
        rw [Store.slot, found, layout_eq_none_iff.mpr found]
        rfl
    | some slot =>
        rw [Store.slot, found, layout_of_slot? found]
        rfl
  children key := by
    cases found : store.slot? key with
    | none =>
        rw [result_children_of_absent found, layout_eq_none_iff.mpr found]
        rfl
    | some slot =>
        rw [result_children_of_slot? found, childList_of_slot? found, layout_of_slot? found]
        rfl

/-! ## Keys -/

/-- All keys that are positions end where a label ends. -/
def CompleteKeys (store : Store C) : Prop :=
  ∀ key, store.layout.Holds key → key.Complete

/-! ## Payloads -/

/-- The entries of a store are its keys with their payloads. -/
theorem mem_entries_iff {payload : Payload C} :
    (key, payload) ∈ store.entries ↔ ∃ parent, store.layout key = some ⟨parent, payload⟩ := by
  rw [entries, List.mem_map]
  constructor
  · rintro ⟨⟨other, slot⟩, inside, same⟩
    cases same
    exact ⟨slot.parent, layout_of_slot? (Std.TreeMap.mem_toList_iff_getElem?_eq_some.mp inside)⟩
  · rintro ⟨parent, found⟩
    obtain ⟨slot, same⟩ := holds_layout_iff.mp ⟨_, found⟩
    rw [layout_of_slot? same, Option.some.injEq, Standing.mk.injEq] at found
    refine ⟨(key, slot), Std.TreeMap.mem_toList_iff_getElem?_eq_some.mpr same, ?_⟩
    rw [← found.2]

/-- A store holds no references. -/
def AllContent (store : Store C) : Prop :=
  ∀ key payload, store.payload? key = some payload → payload.isReference = false

theorem allContent_iff_entries :
    store.AllContent ↔ store.entries.all (fun entry => !entry.2.isReference) = true := by
  rw [List.all_eq_true]
  constructor
  · rintro allContent ⟨key, payload⟩ inside
    obtain ⟨parent, found⟩ := mem_entries_iff.mp inside
    have noReference := allContent key payload (payload?_of_layout found)
    rw [noReference]
    rfl
  · intro all key payload same
    rw [payload?_eq, Option.map_eq_some_iff] at same
    obtain ⟨standing, found, rfl⟩ := same
    have noReference := all (key, standing.payload) (mem_entries_iff.mpr ⟨_, found⟩)
    rwa [Bool.not_eq_true'] at noReference

theorem AllContent.not_isReference {standing : Standing C} (allContent : store.AllContent)
    (found : store.layout key = some standing) : standing.payload.isReference = false :=
  allContent key standing.payload (payload?_of_layout found)

/-- Every node of a store without references holds content. -/
theorem AllContent.exists_content {standing : Standing C} (allContent : store.AllContent)
    (found : store.layout key = some standing) : ∃ value, standing.payload = .content value :=
  Payload.exists_content (allContent.not_isReference found)

end Store

end VersionedTrees
