import VersionedTrees.Proofs.Layout.Basic

/-!
# Changes of layouts

There are two ways to change a layout. `Layout.place` puts a node under a key, new or in place of
what stood there, and so covers insertions, moves and updates; `Layout.prune` takes a subtree out.
Both keep trees trees: a node may be placed below any key that is not in its own subtree
(`IsTree.place_below`), and any subtree may be taken out (`IsTree.prune`). Whether a layout is a
tree does not depend on the payloads (`SameParents`).
-/

namespace VersionedTrees

namespace Layout

variable {C : Type} {layout other : Layout C} {key top parent : Key} {line : List Key}
  {standing : Standing C} {payload : Payload C}

/-! ## Layouts that differ in payloads alone -/

/-- Two layouts have the same keys with the same parents. -/
def SameParents (layout other : Layout C) : Prop :=
  ∀ key, (layout key).map (·.parent) = (other key).map (·.parent)

theorem isChild_iff : layout.IsChild key parent ↔ (layout key).map (·.parent) = some (some parent) := by
  constructor
  · rintro ⟨payload, same⟩
    rw [same]
    rfl
  · intro same
    obtain ⟨⟨_, payload⟩, found, rfl⟩ := Option.map_eq_some_iff.mp same
    exact ⟨payload, found⟩

theorem isRoot_iff : layout.IsRoot key ↔ (layout key).map (·.parent) = some none := by
  constructor
  · rintro ⟨payload, same⟩
    rw [same]
    rfl
  · intro same
    obtain ⟨⟨_, payload⟩, found, rfl⟩ := Option.map_eq_some_iff.mp same
    exact ⟨payload, found⟩

theorem SameParents.isChild_iff (same : layout.SameParents other) :
    layout.IsChild key parent ↔ other.IsChild key parent := by
  rw [Layout.isChild_iff, Layout.isChild_iff, same]

theorem SameParents.isRoot_iff (same : layout.SameParents other) :
    layout.IsRoot key ↔ other.IsRoot key := by
  rw [Layout.isRoot_iff, Layout.isRoot_iff, same]

theorem SameParents.holds_iff (same : layout.SameParents other) :
    layout.Holds key ↔ other.Holds key := by
  have isSome := congrArg Option.isSome (same key)
  simp only [Option.isSome_map] at isSome
  rw [holds_iff_isSome, holds_iff_isSome, isSome]

theorem SameParents.isLine (same : layout.SameParents other) (isLine : layout.Line key line) :
    other.Line key line := by
  induction isLine with
  | root isRoot => exact .root (same.isRoot_iff.mp isRoot)
  | child isChild _ inductionHypothesis =>
      exact .child (same.isChild_iff.mp isChild) inductionHypothesis

/-- Payloads have no part in whether a layout is a tree. -/
theorem SameParents.isTree (same : layout.SameParents other) (isTree : layout.IsTree) :
    other.IsTree where
  rooted key holds := by
    obtain ⟨line, isLine⟩ := isTree.rooted key (same.holds_iff.mpr holds)
    exact ⟨line, same.isLine isLine⟩
  single left right first second :=
    isTree.single left right (same.isRoot_iff.mpr first) (same.isRoot_iff.mpr second)

/-- Keys that have the same parents in two layouts, together with the keys above them. -/
structure Aligned (layout other : Layout C) (among : Key → Prop) : Prop where
  sameParent : ∀ key, among key → (layout key).map (·.parent) = (other key).map (·.parent)
  closed : ∀ key parent, among key → other.IsChild key parent → among parent

/-- Such a key is below the same keys in both layouts. -/
theorem Aligned.within_iff {among : Key → Prop} (aligned : layout.Aligned other among)
    (isTree : layout.IsTree) (otherTree : other.IsTree) (inside : among key)
    (holds : other.Holds key) : layout.Within top key ↔ other.Within top key := by
  revert inside
  refine otherTree.induction key holds ?_ ?_
  · intro key isRoot inside
    have isRoot' : layout.IsRoot key := by
      rwa [Layout.isRoot_iff, aligned.sameParent key inside, ← Layout.isRoot_iff]
    rw [isRoot.within_iff, isRoot'.within_iff]
  · intro key parent isChild _ inductionHypothesis inside
    have isChild' : layout.IsChild key parent := by
      rwa [Layout.isChild_iff, aligned.sameParent key inside, ← Layout.isChild_iff]
    rw [within_iff_of_isChild isChild otherTree, within_iff_of_isChild isChild' isTree,
      inductionHypothesis (aligned.closed key parent inside isChild)]

/-- Where the keys above a key have the parents that they have in another layout if they are there at all,
they are all there. -/
theorem aligned_above {among : Key → Prop} (isTree : layout.IsTree) (otherTree : other.IsTree)
    (closed : ∀ key parent, among key → other.IsChild key parent → among parent)
    (sameParent : ∀ key, among key → layout.Holds key →
      (layout key).map (·.parent) = (other key).map (·.parent))
    (inside : among key) (holds : layout.Holds key) (stands : other.Holds key) :
    layout.Aligned other (other.Within · key) := by
  have all : ∀ top, other.Within top key → among top ∧ layout.Holds top := by
    revert inside holds
    refine otherTree.induction key stands ?_ ?_
    · intro key isRoot inside holds top within
      rw [isRoot.within_iff.mp within]
      exact ⟨inside, holds⟩
    · intro key parent isChild _ inductionHypothesis inside holds top within
      rcases (within_iff_of_isChild isChild otherTree).mp within with rfl | higher
      · exact ⟨inside, holds⟩
      · have isChild' : layout.IsChild key parent := by
          rwa [Layout.isChild_iff, sameParent key inside holds, ← Layout.isChild_iff]
        exact inductionHypothesis (closed key parent inside isChild) (isTree.parent_holds isChild') top
          higher
  refine ⟨fun top within => sameParent top (all top within).1 (all top within).2, ?_⟩
  intro top parent within isChild
  exact (isChild.within (otherTree.within_self (otherTree.parent_holds isChild))).trans within

/-! ## Placing -/

/-- Puts a node under a key, new or in place of what stood there. -/
def place (layout : Layout C) (key : Key) (standing : Standing C) : Layout C := fun other =>
  if key = other then some standing else layout other

@[simp] theorem place_self (layout : Layout C) (key : Key) (standing : Standing C) :
    layout.place key standing key = some standing :=
  if_pos rfl

theorem place_of_ne {other : Key} (different : key ≠ other) :
    layout.place key standing other = layout other :=
  if_neg different

theorem place_eq (layout : Layout C) (key : Key) (standing : Standing C) (other : Key) :
    layout.place key standing other = if key = other then some standing else layout other := rfl

/-- To place what is there already changes nothing. -/
theorem place_eq_self (found : layout key = some standing) : layout.place key standing = layout := by
  funext other
  by_cases same : key = other
  · subst same
    rw [place_self, found]
  · rw [place_of_ne same]

/-- What is placed below a parent becomes its child. -/
theorem isChild_place_iff {child above : Key} :
    (layout.place key ⟨some parent, payload⟩).IsChild child above ↔
      if key = child then parent = above else layout.IsChild child above := by
  by_cases same : key = child
  · subst same
    rw [isChild_iff, place_self, if_pos rfl, Option.map_some, Option.some.injEq, Option.some.injEq]
  · rw [isChild_iff, place_of_ne same, if_neg same, ← isChild_iff]

/-- What is placed below a parent is no root. -/
theorem isRoot_place_iff {root : Key} :
    (layout.place key ⟨some parent, payload⟩).IsRoot root ↔ key ≠ root ∧ layout.IsRoot root := by
  by_cases same : key = root
  · subst same
    simp [isRoot_iff]
  · rw [isRoot_iff, place_of_ne same, ← isRoot_iff]
    exact (and_iff_right same).symm

/-- A new payload below the same parent changes no parent. -/
theorem sameParents_place {old : Payload C} {above : Option Key}
    (found : layout key = some ⟨above, old⟩) :
    layout.SameParents (layout.place key ⟨above, payload⟩) := by
  intro other
  by_cases same : key = other
  · subst same
    rw [found, place_self]
    rfl
  · rw [place_of_ne same]

/-- A line that avoids a key stays when something is placed there. -/
theorem Line.place (isLine : layout.Line top line) (avoids : key ∉ line) :
    (layout.place key standing).Line top line := by
  induction isLine with
  | @root top isRoot =>
      obtain ⟨payload, same⟩ := isRoot
      have different : key ≠ top := fun equal => avoids (List.mem_singleton.mpr equal)
      exact .root ⟨payload, by rw [place_of_ne different, same]⟩
  | @child top parent line isChild _ inductionHypothesis =>
      obtain ⟨payload, same⟩ := isChild
      have different : key ≠ top := fun equal => avoids (equal ▸ List.mem_cons_self)
      exact .child ⟨payload, by rw [place_of_ne different, same]⟩
        (inductionHypothesis fun inside => avoids (List.mem_cons_of_mem _ inside))

/-- A node may be placed below every key that is not in its own subtree. -/
theorem IsTree.place_below (isTree : layout.IsTree) (holds : layout.Holds parent)
    (outside : ¬ layout.Within key parent) :
    (layout.place key ⟨some parent, payload⟩).IsTree where
  rooted := by
    obtain ⟨line, isLine⟩ := isTree.rooted parent holds
    have avoids : key ∉ line := fun inside => outside (isLine.within inside)
    -- the placed key has a line over its new parent, whose line has not changed
    have placed : (layout.place key ⟨some parent, payload⟩).Line key (key :: line) :=
      .child ⟨payload, place_self _ _ _⟩ (isLine.place avoids)
    intro other present
    by_cases same : key = other
    · subst same
      exact ⟨_, placed⟩
    · have old : layout.Holds other := by
        obtain ⟨standing, found⟩ := present
        rw [place_of_ne same] at found
        exact ⟨standing, found⟩
      refine isTree.induction (motive := fun other =>
        ∃ line, (layout.place key ⟨some parent, payload⟩).Line other line) other old ?_ ?_
      · rintro other ⟨payload, found⟩
        by_cases same : key = other
        · subst same
          exact ⟨_, placed⟩
        · exact ⟨_, .root ⟨payload, by rw [place_of_ne same, found]⟩⟩
      · rintro other above ⟨payload, found⟩ - ⟨line, isLine⟩
        by_cases same : key = other
        · subst same
          exact ⟨_, placed⟩
        · exact ⟨_, .child ⟨payload, by rw [place_of_ne same, found]⟩ isLine⟩
  single := by
    intro left right first second
    have old : ∀ other, (layout.place key ⟨some parent, payload⟩).IsRoot other →
        layout.IsRoot other := by
      rintro other ⟨payload, found⟩
      have different : key ≠ other := by
        rintro rfl
        rw [place_self] at found
        cases found
      rw [place_of_ne different] at found
      exact ⟨payload, found⟩
    exact isTree.single left right (old left first) (old right second)

/-- A node keeps what stands below it wherever it is placed. -/
theorem IsTree.within_place_self_iff {other : Key} (isTree : layout.IsTree)
    (isTree' : (layout.place key standing).IsTree) :
    (layout.place key standing).Within key other ↔ key = other ∨ layout.Within key other := by
  have self : (layout.place key standing).Within key key :=
    isTree'.within_self ⟨standing, place_self _ _ _⟩
  constructor
  · intro within
    refine isTree'.induction (motive := fun other => (layout.place key standing).Within key other →
      key = other ∨ layout.Within key other) other within.holds ?_ ?_ within
    · exact fun other isRoot within => .inl (isRoot.within_iff.mp within)
    · intro other above isChild _ inductionHypothesis within
      rcases (within_iff_of_isChild isChild isTree').mp within with same | higher
      · exact .inl same
      · by_cases same : key = other
        · exact .inl same
        · have isChild : layout.IsChild other above := by
            rwa [Layout.isChild_iff, place_of_ne same, ← Layout.isChild_iff] at isChild
          refine .inr (isChild.within ?_)
          rcases inductionHypothesis higher with rfl | higher
          · exact isTree.within_self (isTree.parent_holds isChild)
          · exact higher
  · rintro (rfl | within)
    · exact self
    · refine isTree.induction (motive := fun other => layout.Within key other →
        (layout.place key standing).Within key other) other within.holds ?_ ?_ within
      · intro other isRoot within
        rwa [← isRoot.within_iff.mp within]
      · intro other above isChild _ inductionHypothesis within
        by_cases same : key = other
        · rwa [← same]
        · have higher := ((within_iff_of_isChild isChild isTree).mp within).resolve_left same
          have isChild : (layout.place key standing).IsChild other above := by
            rwa [Layout.isChild_iff, place_of_ne same, ← Layout.isChild_iff]
          exact isChild.within (inductionHypothesis higher)

/-- A root may be placed where nothing stands. -/
theorem isTree_place_root (empty : ∀ key, layout key = none) :
    (layout.place key ⟨none, payload⟩).IsTree where
  rooted other present := by
    obtain ⟨standing, found⟩ := present
    by_cases same : key = other
    · subst same
      exact ⟨_, .root ⟨payload, place_self _ _ _⟩⟩
    · rw [place_of_ne same, empty] at found
      cases found
  single left right first second := by
    have only : ∀ other, (layout.place key ⟨none, payload⟩).IsRoot other → key = other := by
      rintro other ⟨payload, found⟩
      by_contra different
      rw [place_of_ne different, empty] at found
      cases found
    rw [← only left first, ← only right second]

/-! ## Pruning -/

open Classical in
/-- Takes the subtree of a key out. -/
noncomputable def prune (layout : Layout C) (top : Key) : Layout C := fun other =>
  if layout.Within top other then none else layout other

theorem prune_of_within {other : Key} (within : layout.Within top other) :
    layout.prune top other = none :=
  if_pos within

theorem prune_of_not_within {other : Key} (outside : ¬ layout.Within top other) :
    layout.prune top other = layout other :=
  if_neg outside

theorem prune_of_absent {other : Key} (absent : layout other = none) :
    layout.prune top other = none := by
  by_cases within : layout.Within top other
  · exact prune_of_within within
  · rw [prune_of_not_within within, absent]

/-- Nothing is taken out with a key that is not there. -/
theorem prune_eq_self (absent : layout top = none) : layout.prune top = layout :=
  funext fun _ => prune_of_not_within fun within => not_holds_iff.mpr absent within.top_holds

theorem prune_eq_some {other : Key} :
    layout.prune top other = some standing ↔
      layout other = some standing ∧ ¬ layout.Within top other := by
  by_cases within : layout.Within top other
  · simp [prune_of_within within, within]
  · simp [prune_of_not_within within, within]

/-- What is pruned is what stands outside of the subtree. -/
theorem prune_holds_iff {other : Key} :
    (layout.prune top).Holds other ↔ layout.Holds other ∧ ¬ layout.Within top other := by
  simp only [Holds, prune_eq_some, exists_and_right]

theorem isChild_prune_iff {child above : Key} :
    (layout.prune top).IsChild child above ↔
      layout.IsChild child above ∧ ¬ layout.Within top child := by
  simp only [IsChild, prune_eq_some, exists_and_right]

theorem isRoot_prune_iff {root : Key} :
    (layout.prune top).IsRoot root ↔ layout.IsRoot root ∧ ¬ layout.Within top root := by
  simp only [IsRoot, prune_eq_some, exists_and_right]

theorem Line.prune (isLine : layout.Line key line) (outside : ¬ layout.Within top key) :
    (layout.prune top).Line key line := by
  induction isLine with
  | root isRoot =>
      obtain ⟨payload, same⟩ := isRoot
      exact .root ⟨payload, prune_eq_some.mpr ⟨same, outside⟩⟩
  | child isChild _ inductionHypothesis =>
      have higher := inductionHypothesis fun within => outside (isChild.within within)
      obtain ⟨payload, same⟩ := isChild
      exact .child ⟨payload, prune_eq_some.mpr ⟨same, outside⟩⟩ higher

theorem Line.of_prune (isLine : (layout.prune top).Line key line) : layout.Line key line := by
  induction isLine with
  | root isRoot => exact .root (isRoot_prune_iff.mp isRoot).1
  | child isChild _ inductionHypothesis =>
      exact .child (isChild_prune_iff.mp isChild).1 inductionHypothesis

/-- Once a subtree has been taken out, others are without what they had in common with it. -/
theorem within_prune_iff {other : Key} :
    (layout.prune top).Within other key ↔ layout.Within other key ∧ ¬ layout.Within top key := by
  constructor
  · rintro ⟨line, isLine, inside⟩
    exact ⟨isLine.of_prune.within inside, (prune_holds_iff.mp isLine.holds).2⟩
  · rintro ⟨⟨line, isLine, inside⟩, outside⟩
    exact (isLine.prune outside).within inside

/-- A tree without one of its subtrees is a tree. -/
theorem IsTree.prune (isTree : layout.IsTree) (top : Key) : (layout.prune top).IsTree where
  rooted key present := by
    obtain ⟨old, outside⟩ := prune_holds_iff.mp present
    obtain ⟨line, isLine⟩ := isTree.rooted key old
    exact ⟨line, isLine.prune outside⟩
  single left right first second := by
    obtain ⟨payload, same⟩ := first
    obtain ⟨payload', same'⟩ := second
    exact isTree.single left right ⟨payload, (prune_eq_some.mp same).1⟩
      ⟨payload', (prune_eq_some.mp same').1⟩

/-- Takes several subtrees out, one after the other. -/
noncomputable def pruneAll (layout : Layout C) (tops : List Key) : Layout C :=
  tops.foldl prune layout

theorem pruneAll_eq_some {tops : List Key} : layout.pruneAll tops key = some standing ↔
    layout key = some standing ∧ ∀ top ∈ tops, ¬ layout.Within top key := by
  induction tops generalizing layout with
  | nil => simp [pruneAll]
  | cons first tops inductionHypothesis =>
      change (layout.prune first).pruneAll tops key = _ ↔ _
      rw [inductionHypothesis, prune_eq_some, List.forall_mem_cons, and_assoc]
      refine and_congr_right fun _ => and_congr_right fun outside => ?_
      simp only [within_prune_iff, not_and, not_not]
      exact ⟨fun all top inside within => outside (all top inside within),
        fun all top inside within => absurd within (all top inside)⟩

/-- Without its root a tree is empty. -/
theorem IsTree.prune_root (isTree : layout.IsTree) (isRoot : layout.IsRoot top) (key : Key) :
    layout.prune top key = none := by
  rw [← not_holds_iff, prune_holds_iff]
  rintro ⟨holds, outside⟩
  obtain ⟨root, isRoot', within⟩ := isTree.exists_root holds
  rw [isTree.single top root isRoot isRoot'] at outside
  exact outside within

/-- Nothing stands below a key that is not there, so a new node is alone in its subtree. -/
theorem IsTree.within_place_iff (isTree : layout.IsTree) (new : layout key = none)
    (holds : layout.Holds parent) {other : Key} :
    (layout.place key ⟨some parent, payload⟩).Within key other ↔ key = other := by
  have different : key ≠ parent := by
    rintro rfl
    exact not_holds_iff.mpr new holds
  have isTree' : (layout.place key ⟨some parent, payload⟩).IsTree :=
    isTree.place_below holds fun within => not_holds_iff.mpr new within.top_holds
  constructor
  · rintro ⟨line, isLine, inside⟩
    induction isLine with
    | root isRoot => exact List.mem_singleton.mp inside
    | @child other above line isChild _ inductionHypothesis =>
        rcases List.mem_cons.mp inside with same | higher
        · exact same
        · -- a child of the new key would have been there without its parent
          obtain rfl := inductionHypothesis higher
          by_contra apart
          obtain ⟨payload', found⟩ := isChild
          rw [place_of_ne apart] at found
          exact not_holds_iff.mpr new (isTree.parent_holds ⟨payload', found⟩)
  · rintro rfl
    exact isTree'.within_self ⟨_, place_self _ _ _⟩

/-- To take a new node out again undoes its insertion. -/
theorem IsTree.prune_place (isTree : layout.IsTree) (new : layout key = none)
    (holds : layout.Holds parent) :
    (layout.place key ⟨some parent, payload⟩).prune key = layout := by
  funext other
  by_cases same : key = other
  · subst same
    rw [prune_of_within ((isTree.within_place_iff new holds).mpr rfl), new]
  · rw [prune_of_not_within fun within => same ((isTree.within_place_iff new holds).mp within),
      place_of_ne same]

/-! ## Grafting -/

open Classical in
/-- Puts the subtree that another layout has at a key in the place of what stands there, below a given
parent. -/
noncomputable def graft (layout other : Layout C) (top : Key) (above : Option Key) : Layout C :=
  fun key =>
    if other.Within top key then
      (other key).map fun standing =>
        ⟨if top = key then above else standing.parent, standing.payload⟩
    else layout.prune top key

variable {above : Option Key}

theorem graft_of_within (within : other.Within top key) :
    layout.graft other top above key = (other key).map fun standing =>
      ⟨if top = key then above else standing.parent, standing.payload⟩ :=
  if_pos within

theorem graft_of_below (within : other.Within top key) (different : top ≠ key) :
    layout.graft other top above key = other key := by
  rw [graft_of_within within]
  simp only [if_neg different]
  exact congrFun Option.map_id _

theorem graft_of_outside (outside : ¬ other.Within top key) :
    layout.graft other top above key = layout.prune top key :=
  if_neg outside

/-- After a graft the top stands below the given parent, with its payload in the other layout. -/
theorem graft_self (otherTree : other.IsTree) {found : Standing C} (there : other top = some found) :
    layout.graft other top above top = some ⟨above, found.payload⟩ := by
  rw [graft_of_within (otherTree.within_self ⟨found, there⟩), there, Option.map_some, if_pos rfl]

/-- A layout has the keys of another subtree, as far as it has them at all, below the top of it. -/
def Confines (layout other : Layout C) (top : Key) : Prop :=
  ∀ key, other.Within top key → layout.Holds key → layout.Within top key

/-- Outside of the subtree that a graft replaces all stays as it was. -/
theorem Confines.graft_of_not_within (confines : layout.Confines other top) (holds : layout.Holds key)
    (apart : ¬ layout.Within top key) : layout.graft other top above key = layout key := by
  rw [graft_of_outside fun within => apart (confines key within holds), prune_of_not_within apart]

/-- After a graft there is the grafted subtree, and what was outside of the replaced one. -/
theorem holds_graft_iff : (layout.graft other top above).Holds key ↔
    other.Within top key ∨ layout.Holds key ∧ ¬ layout.Within top key := by
  by_cases within : other.Within top key
  · refine iff_of_true ?_ (.inl within)
    obtain ⟨standing, there⟩ := within.holds
    exact ⟨_, by rw [graft_of_within within, there]; rfl⟩
  · rw [or_iff_right within, holds_iff_ne_none, graft_of_outside within, ← holds_iff_ne_none,
      prune_holds_iff]

section Grafting

variable (isTree : layout.IsTree) (otherTree : other.IsTree) (confines : layout.Confines other top)

include isTree otherTree confines

/-- In the grafted subtree stand the children that the other layout has there. -/
theorem isChild_graft_of_within {child : Key}
    (outside : ∀ parent, above = some parent → ¬ layout.Within top parent)
    (held : ∀ parent, above = some parent → layout.Holds parent)
    (within : other.Within top parent) :
    (layout.graft other top above).IsChild child parent ↔ other.IsChild child parent := by
  have notAbove : above ≠ some parent := fun same =>
    outside parent same (confines parent within (held parent same))
  by_cases inside : other.Within top child
  · by_cases same : top = child
    · subst same
      refine iff_of_false ?_ fun isChild => isChild.not_within otherTree within
      rintro ⟨payload, found⟩
      obtain ⟨standing, there⟩ := inside.holds
      rw [graft_self otherTree there, Option.some.injEq, Standing.mk.injEq] at found
      exact notAbove found.1
    · rw [isChild_iff, graft_of_below inside same, ← isChild_iff]
  · refine iff_of_false ?_ fun isChild => inside (isChild.within within)
    rw [isChild_iff, graft_of_outside inside, ← isChild_iff]
    intro isChild
    -- what is left of the layout has no parent among the keys that were taken out
    obtain ⟨holds, apart⟩ := prune_holds_iff.mp ((isTree.prune top).parent_holds isChild)
    exact apart (confines parent within holds)

/-- Outside of the grafted subtree stand the children that stood there. -/
theorem isChild_graft_of_outside {child : Key}
    (isParent : ∀ parent, above = some parent ↔ layout.IsChild top parent)
    (top_holds : other.Holds top) (holds : layout.Holds parent)
    (apart : ¬ layout.Within top parent) :
    (layout.graft other top above).IsChild child parent ↔ layout.IsChild child parent := by
  have elsewhere : ¬ other.Within top parent := fun within => apart (confines parent within holds)
  by_cases inside : other.Within top child
  · by_cases same : top = child
    · subst same
      obtain ⟨standing, there⟩ := top_holds
      rw [isChild_iff, graft_self otherTree there, ← isParent, Option.map_some, Option.some.injEq]
    · rw [isChild_iff, graft_of_below inside same, ← isChild_iff]
      constructor
      · intro isChild
        exact absurd (((within_iff_of_isChild isChild otherTree).mp inside).resolve_left same)
          elsewhere
      · intro isChild
        have within := confines child inside isChild.holds
        exact absurd (((within_iff_of_isChild isChild isTree).mp within).resolve_left same) apart
  · rw [isChild_iff, graft_of_outside inside, ← isChild_iff, isChild_prune_iff]
    refine and_iff_left_of_imp fun isChild within => ?_
    rcases (within_iff_of_isChild isChild isTree).mp within with rfl | higher
    · exact inside (otherTree.within_self top_holds)
    · exact apart higher

omit isTree in
/-- A graft in place of what stood there changes no root. -/
theorem isRoot_graft_iff (isParent : ∀ parent, above = some parent ↔ layout.IsChild top parent)
    (holds : layout.Holds top) (top_holds : other.Holds top) :
    (layout.graft other top above).IsRoot key ↔ layout.IsRoot key := by
  by_cases inside : other.Within top key
  · by_cases same : top = key
    · subst same
      obtain ⟨standing, there⟩ := top_holds
      rw [isRoot_iff, graft_self otherTree there, Option.map_some, Option.some.injEq]
      constructor
      · intro none
        refine holds.isRoot_or_isChild.resolve_right fun ⟨parent, isChild⟩ => ?_
        exact absurd (none.symm.trans ((isParent parent).mpr isChild)) nofun
      · intro isRoot
        rw [Option.eq_none_iff_forall_ne_some]
        exact fun parent same => isRoot.not_isChild ((isParent parent).mp same)
    · rw [isRoot_iff, graft_of_below inside same, ← isRoot_iff]
      refine iff_of_false (fun isRoot => same (isRoot.within_iff.mp inside)) fun isRoot => ?_
      exact same (isRoot.within_iff.mp (confines key inside isRoot.holds))
  · rw [isRoot_iff, graft_of_outside inside, ← isRoot_iff, isRoot_prune_iff]
    refine and_iff_left_of_imp fun isRoot within => ?_
    obtain rfl := isRoot.within_iff.mp within
    exact inside (otherTree.within_self top_holds)

end Grafting

/-! ## Where a node may be put -/

/-- A key may be put below a parent that is there and not in its own subtree, or as the root if there is
no other. -/
def Accepts (layout : Layout C) (key : Key) : Option Key → Prop
  | none => (∀ other, layout other = none) ∨ layout.IsRoot key
  | some parent => layout.Holds parent ∧ ¬ layout.Within key parent

/-- Below a parent that accepts it, a key that is there already is no root. -/
theorem IsTree.exists_parent_of_accepts (isTree : layout.IsTree) (holds : layout.Holds key)
    (accepts : layout.Accepts key (some parent)) : ∃ previous, layout.IsChild key previous := by
  refine holds.isRoot_or_isChild.resolve_left fun isRoot => ?_
  obtain ⟨root, isRoot', within⟩ := isTree.exists_root accepts.1
  rw [isTree.single root key isRoot' isRoot] at within
  exact accepts.2 within

end Layout

end VersionedTrees
