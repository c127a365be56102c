import VersionedTrees.Proofs.Store.Runs

/-!
# What edits of a store leave alone

A deletion takes out a node with all that stands below it (`Store.Removed`), and an insertion of a key
that is there already gives it a payload and a parent, with all that stands below it (`Store.Moved`).
Neither is seen anywhere else: every other node keeps its payload and its parent, and lists of children
differ in that one key at most. Both are read off the layout that an edit leaves. An insertion that
would leave no tree is refused, and a key that is inserted again comes without children
(`Store.edits_leave_rest`).
-/

namespace VersionedTrees

variable {C : Type}

/-! ## Lists of children that differ in one key -/

/-- Where two layouts have the same children but for one, the lists are alike without that one. -/
theorem Layout.ListedBy.erase_eq {left right : Layout C} {next other : Key → List Key}
    {key top : Key} (first : left.ListedBy next) (second : right.ListedBy other)
    (same : ∀ child, child ≠ top → (left.IsChild child key ↔ right.IsChild child key)) :
    (next key).erase top = (other key).erase top := by
  refine eq_of_ordered ((first.ordered key).sublist List.erase_sublist)
    ((second.ordered key).sublist List.erase_sublist) fun child => ?_
  rw [(nodup_of_ordered (first.ordered key)).mem_erase_iff,
    (nodup_of_ordered (second.ordered key)).mem_erase_iff, first.mem_iff, second.mem_iff]
  exact and_congr_right (same child)

namespace Tree.Shows

variable {left right : Tree C} {layout other : Layout C} {key : Key}

/-- Where two layouts have the same children, these are told alike. -/
theorem result_children_eq (first : left.Shows layout) (second : right.Shows other)
    (holds : layout.Holds key ↔ other.Holds key)
    (same : ∀ child, layout.IsChild child key ↔ other.IsChild child key) :
    (left.children key).result = (right.children key).result := by
  have isSome : (layout key).isSome = (other key).isSome := by
    rw [Bool.eq_iff_iff, ← Layout.holds_iff_isSome, ← Layout.holds_iff_isSome, holds]
  rw [first.children, second.children, isSome, first.listed.eq_of_isChild_iff second.listed same]

/-- Where the layouts have the same children but for one, these are told alike but for that one. -/
theorem result_children_erase {top : Key} (first : left.Shows layout) (second : right.Shows other)
    (holds : layout.Holds key ↔ other.Holds key)
    (same : ∀ child, child ≠ top → (layout.IsChild child key ↔ other.IsChild child key)) :
    (left.children key).result.map (·.erase top) = (right.children key).result.map (·.erase top) := by
  have isSome : (layout key).isSome = (other key).isSome := by
    rw [Bool.eq_iff_iff, ← Layout.holds_iff_isSome, ← Layout.holds_iff_isSome, holds]
  have lists := first.listed.erase_eq second.listed same
  rw [first.children, second.children, isSome]
  cases (other key).isSome with
  | true => exact congrArg Except.ok lists
  | false => rfl

end Tree.Shows

namespace Store

variable {store next : Store C} {key top parent : Key} {payload : Payload C}

/-! ## Subtrees -/

/-- A key stands at or below another: parents lead up from it to the other. -/
def AtOrBelow (store : Store C) (top key : Key) : Prop :=
  Relation.ReflTransGen store.NamesParent key top

theorem WellFormed.atOrBelow_iff (wellFormed : store.WellFormed) (holds : store.layout.Holds top) :
    store.AtOrBelow top key ↔ store.layout.Within top key := by
  constructor
  · intro climbs
    induction climbs using Relation.ReflTransGen.head_induction_on with
    | refl => exact wellFormed.isTree.within_self holds
    | head named _ inductionHypothesis => exact (namesParent_iff.mp named).within inductionHypothesis
  · intro within
    refine wellFormed.isTree.induction (motive := fun key => store.layout.Within top key →
      store.AtOrBelow top key) key within.holds ?_ ?_ within
    · intro key isRoot within
      rw [isRoot.within_iff.mp within]
      exact .refl
    · intro key parent isChild _ inductionHypothesis within
      rcases (Layout.within_iff_of_isChild isChild wellFormed.isTree).mp within with rfl | higher
      · exact .refl
      · exact .head (namesParent_iff.mpr isChild) (inductionHypothesis higher)

/-- A key stands at or below those that are in its lineage. -/
theorem WellFormed.atOrBelow_iff_mem_lineage (wellFormed : store.WellFormed)
    (holds : store.layout.Holds top) (below : store.layout.Holds key) :
    store.AtOrBelow top key ↔ top ∈ store.lineage key := by
  rw [wellFormed.atOrBelow_iff holds, mem_lineage_iff wellFormed.isTree below]

/-! ## Deletions -/

/-- A store is another one without a node and all that stands below it. -/
structure Removed (store : Store C) (top : Key) (next : Store C) : Prop where
  contains_iff : ∀ key, next.contains key = true ↔
    store.contains key = true ∧ ¬ store.AtOrBelow top key
  node : ∀ key, ¬ store.AtOrBelow top key →
    (next.tree.node key).result = (store.tree.node key).result
  parent : ∀ key, ¬ store.AtOrBelow top key →
    (next.tree.parent key).result = (store.tree.parent key).result
  children : ∀ key, ¬ store.AtOrBelow top key → ¬ store.NamesParent top key →
    (next.tree.children key).result = (store.tree.children key).result
  children_above : ∀ key, store.NamesParent top key →
    (next.tree.children key).result = (store.tree.children key).result.map (·.erase top)

theorem WellFormed.removed (wellFormed : store.WellFormed) (holds : store.layout.Holds top)
    (becomes : store.Becomes (store.layout.prune top) next) : store.Removed top next := by
  have shows := wellFormed.shows
  have shows' := becomes.wellFormed.shows
  rw [becomes.layout_eq] at shows'
  have outside : ∀ {key}, ¬ store.AtOrBelow top key → ¬ store.layout.Within top key :=
    fun apart within => apart ((wellFormed.atOrBelow_iff holds).mpr within)
  have kept : ∀ {key}, ¬ store.layout.Within top key →
      ((store.layout.prune top).Holds key ↔ store.layout.Holds key) :=
    fun apart => Layout.prune_holds_iff.trans (and_iff_left apart)
  refine ⟨fun key => ?_, fun key apart => ?_, fun key apart => ?_, fun key apart elsewhere => ?_,
    fun key above => ?_⟩
  · rw [contains_iff_holds, contains_iff_holds, becomes.layout_eq, Layout.prune_holds_iff]
    exact and_congr_right fun _ => not_congr (wellFormed.atOrBelow_iff holds).symm
  · rw [shows'.node, shows.node, Layout.prune_of_not_within (outside apart)]
  · rw [shows'.parent, shows.parent, Layout.prune_of_not_within (outside apart)]
  · refine shows'.result_children_eq shows (kept (outside apart)) fun child => ?_
    rw [Layout.isChild_prune_iff]
    refine and_iff_left_of_imp fun isChild within => ?_
    rcases (Layout.within_iff_of_isChild isChild wellFormed.isTree).mp within with rfl | higher
    · exact elsewhere (namesParent_iff.mpr isChild)
    · exact outside apart higher
  · have isChild := namesParent_iff.mp above
    have apart := isChild.not_within wellFormed.isTree
    have same : ∀ child, child ≠ top →
        ((store.layout.prune top).IsChild child key ↔ store.layout.IsChild child key) := by
      intro child different
      rw [Layout.isChild_prune_iff]
      refine and_iff_left_of_imp fun isChild within => ?_
      exact apart (((Layout.within_iff_of_isChild isChild wellFormed.isTree).mp within).resolve_left
        different.symm)
    have lists := shows'.result_children_erase shows (kept apart) same
    rw [← lists, shows'.result_children ((kept apart).mpr (wellFormed.isTree.parent_holds isChild))]
    have left : top ∉ next.tree.childList key := by
      rw [shows'.listed.mem_iff, Layout.isChild_prune_iff]
      exact fun ⟨_, out⟩ => out (wellFormed.isTree.within_self holds)
    exact congrArg Except.ok (List.erase_of_not_mem left).symm

/-! ## Moves -/

/-- A store is another one with a payload and a parent for a node that it has. -/
structure Moved (store : Store C) (key above : Key) (payload : Payload C) (next : Store C) : Prop where
  node_self : (next.tree.node key).result = .ok (some ⟨key, payload⟩)
  parent_self : (next.tree.parent key).result = .ok (some above)
  atOrBelow_iff : ∀ other, next.AtOrBelow key other ↔ store.AtOrBelow key other
  keysFrom_self : (next.tree.keysFrom key).result = (store.tree.keysFrom key).result
  node : ∀ other, other ≠ key → (next.tree.node other).result = (store.tree.node other).result
  parent : ∀ other, other ≠ key → (next.tree.parent other).result = (store.tree.parent other).result
  children_below : ∀ other, store.AtOrBelow key other →
    (next.tree.children other).result = (store.tree.children other).result
  children : ∀ other, (next.tree.children other).result.map (·.erase key) =
    (store.tree.children other).result.map (·.erase key)
  mem_children_iff : ∀ other children, (next.tree.children other).result = .ok children →
    (key ∈ children ↔ other = above)

section Moved

variable (wellFormed : store.WellFormed) (holds : store.layout.Holds key)
  (outside : ¬ store.layout.Within key parent)
  (becomes : store.Becomes (store.layout.place key ⟨some parent, payload⟩) next)

include becomes

/-- Of other nodes than the one that is moved the parents stay. -/
theorem isChild_moved_iff {other : Key} (different : key ≠ other) (above : Key) :
    next.layout.IsChild other above ↔ store.layout.IsChild other above := by
  rw [becomes.layout_eq, Layout.isChild_place_iff, if_neg different]

include wellFormed outside in
/-- Below the node that is moved the children stay. -/
theorem isChild_moved_iff_of_within {other : Key} (within : store.layout.Within key other)
    (child : Key) : next.layout.IsChild child other ↔ store.layout.IsChild child other := by
  by_cases same : key = child
  · subst same
    refine iff_of_false (fun isChild => ?_) fun isChild => isChild.not_within wellFormed.isTree within
    rw [becomes.layout_eq, Layout.isChild_place_iff, if_pos rfl] at isChild
    exact outside (isChild ▸ within)
  · exact isChild_moved_iff becomes same other

include holds in
theorem holds_moved_iff (other : Key) : next.layout.Holds other ↔ store.layout.Holds other := by
  rw [becomes.layout_eq]
  by_cases same : key = other
  · subst same
    exact iff_of_true ⟨_, Layout.place_self _ _ _⟩ holds
  · rw [Layout.Holds, Layout.Holds, Layout.place_of_ne same]

include wellFormed holds

theorem within_moved_iff (other : Key) :
    next.layout.Within key other ↔ store.layout.Within key other := by
  have isTree' := becomes.wellFormed.isTree
  rw [becomes.layout_eq] at isTree' ⊢
  rw [wellFormed.isTree.within_place_self_iff isTree']
  refine ⟨?_, .inr⟩
  rintro (rfl | within)
  · exact wellFormed.isTree.within_self holds
  · exact within

include outside

/-- The keys at and below the node that is moved are told as before. -/
theorem result_keysFrom_moved : (next.tree.keysFrom key).result = (store.tree.keysFrom key).result := by
  have shows := wellFormed.shows
  have shows' := becomes.wellFormed.shows
  have holds' := (holds_moved_iff holds becomes key).mpr holds
  refine shows.result_keysFrom_congr shows' holds holds' fun middle within => ?_
  exact shows'.listed.eq_of_isChild_iff shows.listed
    (isChild_moved_iff_of_within wellFormed outside becomes within)

theorem WellFormed.moved : store.Moved key parent payload next := by
  have shows := wellFormed.shows
  have shows' := becomes.wellFormed.shows
  have holds_iff := holds_moved_iff holds becomes
  have self : next.layout key = some ⟨some parent, payload⟩ := by
    rw [becomes.layout_eq, Layout.place_self]
  have rest : ∀ {other}, other ≠ key → next.layout other = store.layout other := by
    intro other different
    rw [becomes.layout_eq, Layout.place_of_ne different.symm]
  refine ⟨?_, ?_, fun other => ?_, result_keysFrom_moved wellFormed holds outside becomes,
    fun other different => ?_, fun other different => ?_, fun other atOrBelow => ?_, fun other => ?_,
    fun other children told => ?_⟩
  · rw [shows'.node, self]
    rfl
  · rw [shows'.parent, self]
  · rw [becomes.wellFormed.atOrBelow_iff ((holds_iff key).mpr holds), wellFormed.atOrBelow_iff holds]
    exact within_moved_iff wellFormed holds becomes other
  · rw [shows'.node, shows.node, rest different]
  · rw [shows'.parent, shows.parent, rest different]
  · have within := (wellFormed.atOrBelow_iff holds).mp atOrBelow
    exact shows'.result_children_eq shows (holds_iff other)
      (isChild_moved_iff_of_within wellFormed outside becomes within)
  · exact shows'.result_children_erase shows (holds_iff other) fun child different =>
      isChild_moved_iff becomes different.symm other
  · have listed : next.tree.childList other = children := by rw [Tree.childList, told]
    rw [← listed, shows'.listed.mem_iff, becomes.layout_eq, Layout.isChild_place_iff, if_pos rfl]
    exact eq_comm

end Moved

/-! ## Insertions that are refused -/

/-- A node is not inserted below itself. -/
theorem WellFormed.insert_below_itself (wellFormed : store.WellFormed) (different : store.root ≠ some key)
    (within : store.layout.Within key parent) (payload : Payload C) :
    store.insert (some parent) (.exactly key) payload =
      (.error (.shape (.belowItself key parent)), store) := by
  rcases within.top_holds.isRoot_or_isChild with isRoot | ⟨previous, isChild⟩
  · exact absurd ((wellFormed.root key).mpr isRoot) different
  · rw [insert_exactly within.holds, wellFormed.putBelow_of_within isChild within]

/-- The root is not inserted below anything. -/
theorem WellFormed.insert_root_below (wellFormed : store.WellFormed) (root : store.root = some key)
    (above : store.layout.Holds parent) (payload : Payload C) :
    store.insert (some parent) (.exactly key) payload =
      (.error (.shape (.rootBelow key parent)), store) := by
  rw [insert_exactly above, putBelow_of_root ((wellFormed.root key).mp root)]

/-- There is no second root. -/
theorem WellFormed.insert_second_root (wellFormed : store.WellFormed) {root : Key}
    (found : store.root = some root) {placement : Placement} (different : placement.rootKey ≠ root)
    (payload : Payload C) : store.insert none placement payload =
      (.error (.shape (.secondRoot placement.rootKey root)), store) := by
  rw [insert_root, wellFormed.putRoot_of_other ((wellFormed.root root).mp found) different.symm]

/-! ## New nodes -/

/-- A key that was not there comes without children. -/
theorem WellFormed.result_children_of_new (wellFormed : store.WellFormed) {above : Option Key}
    {placement : Placement} (new : store.layout key = none)
    (ok : store.insert above placement payload = (.ok key, next)) :
    (next.tree.children key).result = .ok [] := by
  obtain ⟨wellFormed', layout_eq⟩ := wellFormed.insert_eq_ok ok
  have holds : next.layout.Holds key := ⟨_, by rw [layout_eq, Layout.place_self]⟩
  have childless : next.tree.childList key = [] := by
    rw [List.eq_nil_iff_forall_not_mem]
    intro child among
    obtain ⟨standing, found⟩ := (wellFormed'.listed.mem_iff key child).mp among
    rw [layout_eq] at found
    by_cases same : key = child
    · -- the parent of the new key was there before
      subst same
      rw [Layout.place_self, Option.some.injEq, Standing.mk.injEq] at found
      rw [found.1] at ok
      exact Layout.not_holds_iff.mpr new (chosen_of_insert ok).1
    · rw [Layout.place_of_ne same] at found
      exact Layout.not_holds_iff.mpr new (wellFormed.isTree.parent_holds ⟨standing, found⟩)
  rw [wellFormed'.shows.result_children holds, childless]

/-- A key can be inserted below every node, and wherever it is inserted it has no children then. -/
structure ComesAlone (store : Store C) (key : Key) : Prop where
  accepted : ∀ parent payload, store.contains parent = true →
    ∃ next, store.insert (some parent) (.exactly key) payload = (.ok key, next)
  childless : ∀ above placement payload next,
    store.insert above placement payload = (.ok key, next) →
    (next.tree.children key).result = .ok []

theorem WellFormed.comesAlone (wellFormed : store.WellFormed) (absent : store.contains key = false) :
    store.ComesAlone key := by
  have new := contains_eq_false_iff.mp absent
  refine ⟨fun parent payload above => ?_, fun above placement payload next ok =>
    wellFormed.result_children_of_new new ok⟩
  obtain ⟨next, ok, -⟩ := wellFormed.insert_new (contains_iff_holds.mp above) new payload
  exact ⟨next, ok⟩

/-! ## All edits -/

theorem Reachable.of_delete (edits : store.Reachable) (deleted : store.delete key = .ok next) :
    next.Reachable := by
  have after : ((StoreEdit.delete key).edit.effect store).2 = next := by
    rw [StoreEdit.edit, Edit.effect_map]
    change (Edit.effect (Edit.attempt (·.delete key)) store).2 = next
    rw [Edit.effect_attempt, deleted]
  exact after ▸ .step edits (.delete key)

/-- What the edits of a reachable store do to a key, and that they do nothing else. A deletion removes the
key with all that stands below it, and however the store is edited after that, the key comes back without
children. An insertion of a key that is there gives it the payload and the parent, unless it is the root or
the parent stands at or below it. This, a second root, and a parent that is not there are refused, with the
store as it was. -/
theorem edits_leave_rest (edits : store.Reachable) (key : Key) :
    (store.contains key = true → ∃ next, store.delete key = .ok next ∧ store.Removed key next ∧
      ∀ calls, (next.afterCalls calls).contains key = false → (next.afterCalls calls).ComesAlone key) ∧
    (∀ parent payload, store.contains key = true → store.contains parent = true →
      store.root ≠ some key → ¬ store.AtOrBelow key parent →
      ∃ next, store.insert (some parent) (.exactly key) payload = (.ok key, next) ∧
        store.Moved key parent payload next) ∧
    (∀ parent payload, store.contains key = true → store.root ≠ some key →
      store.AtOrBelow key parent → store.insert (some parent) (.exactly key) payload =
        (.error (.shape (.belowItself key parent)), store)) ∧
    (∀ parent payload, store.contains parent = true → store.root = some key →
      store.insert (some parent) (.exactly key) payload =
        (.error (.shape (.rootBelow key parent)), store)) ∧
    (∀ root placement payload, store.root = some root → placement.rootKey = key → key ≠ root →
      store.insert none placement payload = (.error (.shape (.secondRoot key root)), store)) ∧
    ∀ parent placement payload, store.contains parent = false →
      store.insert (some parent) placement payload = (.error (.nodeNotFound parent), store) := by
  have wellFormed := edits.wellFormed
  refine ⟨fun there => ?_, fun parent payload there above different outside => ?_,
    fun parent payload there different below => ?_, fun parent payload above root => ?_,
    fun root placement payload found same different => ?_, fun parent placement payload absent =>
      insert_of_absent (contains_eq_false_iff.mp absent) placement payload⟩
  · have holds := contains_iff_holds.mp there
    obtain ⟨next, deleted, becomes⟩ := wellFormed.delete holds
    refine ⟨next, deleted, wellFormed.removed holds becomes, fun calls absent => ?_⟩
    exact ((edits.of_delete deleted).afterCalls calls).wellFormed.comesAlone absent
  · have holds := contains_iff_holds.mp there
    have outside : ¬ store.layout.Within key parent :=
      fun within => outside ((wellFormed.atOrBelow_iff holds).mpr within)
    rcases holds.isRoot_or_isChild with isRoot | ⟨previous, isChild⟩
    · exact absurd ((wellFormed.root key).mpr isRoot) different
    · obtain ⟨next, inserted, becomes⟩ :=
        wellFormed.insert_moved isChild (contains_iff_holds.mp above) outside payload
      exact ⟨next, inserted, wellFormed.moved holds outside becomes⟩
  · have within := (wellFormed.atOrBelow_iff (contains_iff_holds.mp there)).mp below
    exact wellFormed.insert_below_itself different within payload
  · exact wellFormed.insert_root_below root (contains_iff_holds.mp above) payload
  · subst same
    exact wellFormed.insert_second_root found different payload

/-- Of a chain the middle goes with the end, and the end moves up to the root; the middle does not go below
the end, nor the root below the middle. -/
theorem edits_leave_rest_chain :
    chain.Reachable ∧
    (∃ next, chain.delete (.number 2) = .ok next ∧ chain.Removed (.number 2) next ∧
      next.ComesAlone (.number 2)) ∧
    (∃ next, chain.insert (some (.number 1)) (.exactly (.number 3)) (.content "up") =
        (.ok (.number 3), next) ∧
      chain.Moved (.number 3) (.number 1) (.content "up") next) ∧
    chain.insert (some (.number 3)) (.exactly (.number 2)) (.content "down") =
      (.error (.shape (.belowItself (.number 2) (.number 3))), chain) ∧
    chain.insert (some (.number 2)) (.exactly (.number 1)) (.content "down") =
      (.error (.shape (.rootBelow (.number 1) (.number 2))), chain) ∧
    chain.insert none (.exactly (.number 9)) (.content "second") =
      (.error (.shape (.secondRoot (.number 9) (.number 1))), chain) := by
  have edits : chain.Reachable := reachable_ofEdits ⟨1⟩ chainEdits
  have holds : ∀ {key}, chain.contains key = true → chain.layout.Holds key := contains_iff_holds.mp
  have one : chain.contains (.number 1) = true := by decide +kernel
  have two : chain.contains (.number 2) = true := by decide +kernel
  have three : chain.contains (.number 3) = true := by decide +kernel
  have root : chain.root = some (.number 1) := by decide +kernel
  have below := edits.wellFormed.atOrBelow_iff_mem_lineage (holds two) (holds three)
  have apart := edits.wellFormed.atOrBelow_iff_mem_lineage (holds three) (holds one)
  obtain ⟨delete, -, itself, -, -, -⟩ := edits_leave_rest edits (.number 2)
  obtain ⟨next, deleted, removed, later⟩ := delete two
  have gone : next.contains (.number 2) = false := by
    rw [← Bool.not_eq_true, removed.contains_iff]
    exact fun ⟨_, outside⟩ => outside .refl
  obtain ⟨-, move, -, -, -, -⟩ := edits_leave_rest edits (.number 3)
  obtain ⟨-, -, -, rootBelow, -, -⟩ := edits_leave_rest edits (.number 1)
  obtain ⟨-, -, -, -, second, -⟩ := edits_leave_rest edits (.number 9)
  refine ⟨edits, ⟨next, deleted, removed, later [] gone⟩,
    move (.number 1) _ three one (by rw [root]; decide) (fun inside => ?_),
    itself (.number 3) _ two (by rw [root]; decide) (below.mpr (by decide +kernel)),
    rootBelow (.number 2) _ two root, second (.number 1) (.exactly (.number 9)) _ root rfl (by decide)⟩
  exact absurd (apart.mp inside) (by decide +kernel)

end Store

end VersionedTrees
