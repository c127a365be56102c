import Mathlib.Data.List.Nodup
import Mathlib.Data.List.Perm.Subperm
import VersionedTrees.Payload

/-!
# Layouts

Stores, views and buffers keep their nodes in different ways. A `Layout` forgets the way: it is the
partial function from keys to what stands under them, which is a payload and the parent. Children
are not part of it, since they are the keys that name the parent.

A layout is a tree (`Layout.IsTree`) if the parents of every key lead up to a root and there is one
root at most. `Layout.Line` is the way up from a key and `Layout.Within` the subtree of a key. Ways
up are unique and show no key twice, so that in a tree with `n` keys none is longer than `n`
(`Line.length_le`).
-/

namespace VersionedTrees

/-- What stands under a key: a payload, below a parent unless it is a root. -/
structure Standing (C : Type) where
  parent : Option Key
  payload : Payload C
deriving DecidableEq

/-- What stands under each key of a tree. -/
abbrev Layout (C : Type) := Key → Option (Standing C)

namespace Layout

variable {C : Type} {layout : Layout C} {key top bottom parent : Key} {line : List Key}

/-- Something stands under a key. -/
def Holds (layout : Layout C) (key : Key) : Prop :=
  ∃ standing, layout key = some standing

/-- A key has no parent. -/
def IsRoot (layout : Layout C) (key : Key) : Prop :=
  ∃ payload, layout key = some ⟨none, payload⟩

/-- A key stands below another. -/
def IsChild (layout : Layout C) (key parent : Key) : Prop :=
  ∃ payload, layout key = some ⟨some parent, payload⟩

/-- A key, its parent and so on, up to a root. -/
inductive Line (layout : Layout C) : Key → List Key → Prop where
  | root {key : Key} (isRoot : layout.IsRoot key) : Line layout key [key]
  | child {key parent : Key} {line : List Key} (isChild : layout.IsChild key parent)
      (above : Line layout parent line) : Line layout key (key :: line)

/-- A key stands in the subtree of another. -/
def Within (layout : Layout C) (top key : Key) : Prop :=
  ∃ line, layout.Line key line ∧ top ∈ line

/-- From every key a line leads up to a root, and there is one root at most. -/
structure IsTree (layout : Layout C) : Prop where
  rooted : ∀ key, layout.Holds key → ∃ line, layout.Line key line
  single : ∀ left right, layout.IsRoot left → layout.IsRoot right → left = right

/-! ## Roots and children -/

theorem IsRoot.holds (isRoot : layout.IsRoot key) : layout.Holds key :=
  let ⟨payload, same⟩ := isRoot
  ⟨⟨none, payload⟩, same⟩

theorem IsChild.holds (isChild : layout.IsChild key parent) : layout.Holds key :=
  let ⟨payload, same⟩ := isChild
  ⟨⟨some parent, payload⟩, same⟩

theorem not_holds_iff : ¬ layout.Holds key ↔ layout key = none := by
  cases found : layout key <;> simp [Holds, found]

theorem holds_iff_ne_none : layout.Holds key ↔ layout key ≠ none :=
  not_holds_iff.not_right

theorem holds_iff_isSome : layout.Holds key ↔ (layout key).isSome = true := by
  simp [Holds, Option.isSome_iff_exists]

/-- A key has one parent at most. -/
theorem IsChild.parent_unique {other : Key} (first : layout.IsChild key parent)
    (second : layout.IsChild key other) : parent = other := by
  obtain ⟨payload, same⟩ := first
  obtain ⟨payload', same'⟩ := second
  rw [same] at same'
  cases same'
  rfl

theorem IsRoot.not_isChild (isRoot : layout.IsRoot key) : ¬ layout.IsChild key parent := by
  obtain ⟨payload, same⟩ := isRoot
  rintro ⟨payload', same'⟩
  rw [same] at same'
  cases same'

/-- Whatever stands somewhere is a root or a child. -/
theorem Holds.isRoot_or_isChild (holds : layout.Holds key) :
    layout.IsRoot key ∨ ∃ parent, layout.IsChild key parent := by
  obtain ⟨⟨_ | parent, payload⟩, same⟩ := holds
  · exact .inl ⟨payload, same⟩
  · exact .inr ⟨parent, payload, same⟩

/-! ## Lines -/

theorem Line.holds (isLine : layout.Line key line) : layout.Holds key := by
  cases isLine with
  | root isRoot => exact isRoot.holds
  | child isChild _ => exact isChild.holds

/-- A line starts with its key. -/
theorem Line.eq_cons (isLine : layout.Line key line) : ∃ above, line = key :: above := by
  cases isLine with
  | root _ => exact ⟨[], rfl⟩
  | child _ _ => exact ⟨_, rfl⟩

theorem Line.mem_self (isLine : layout.Line key line) : key ∈ line := by
  obtain ⟨above, rfl⟩ := isLine.eq_cons
  exact List.mem_cons_self

/-- There is one way up from a key. -/
theorem Line.unique {other : List Key} (first : layout.Line key line)
    (second : layout.Line key other) : line = other := by
  induction first generalizing other with
  | root isRoot =>
      cases second with
      | root _ => rfl
      | child isChild _ => exact absurd isChild isRoot.not_isChild
  | child isChild _ inductionHypothesis =>
      cases second with
      | root isRoot => exact absurd isChild isRoot.not_isChild
      | child isChild' above' =>
          obtain rfl := isChild.parent_unique isChild'
          rw [inductionHypothesis above']

/-- From each key of a line on, the line is the way up from that key. -/
theorem Line.exists_of_mem (isLine : layout.Line key line) (inside : top ∈ line) :
    ∃ below above, line = below ++ above ∧ layout.Line top above := by
  induction isLine with
  | root isRoot =>
      obtain rfl := List.mem_singleton.mp inside
      exact ⟨[], _, rfl, .root isRoot⟩
  | @child key parent line isChild above inductionHypothesis =>
      rcases List.mem_cons.mp inside with rfl | higher
      · exact ⟨[], _, rfl, .child isChild above⟩
      · obtain ⟨below, rest, rfl, isLine⟩ := inductionHypothesis higher
        exact ⟨key :: below, rest, rfl, isLine⟩

/-- All keys of a line hold something. -/
theorem Line.holds_of_mem (isLine : layout.Line key line) (inside : top ∈ line) :
    layout.Holds top :=
  let ⟨_, _, _, isLine⟩ := isLine.exists_of_mem inside
  isLine.holds

/-- A line shows no key twice. -/
theorem Line.nodup (isLine : layout.Line key line) : line.Nodup := by
  induction isLine with
  | root _ => exact List.nodup_singleton _
  | child isChild above inductionHypothesis =>
      refine List.nodup_cons.mpr ⟨fun again => ?_, inductionHypothesis⟩
      -- the way up from the repeated key would be a part of itself
      obtain ⟨lower, upper, same, isLine⟩ := above.exists_of_mem again
      have longer := isLine.unique (.child isChild above)
      have lengths := congrArg List.length same
      rw [longer] at lengths
      simp only [List.length_append, List.length_cons] at lengths
      omega

/-- A line is not longer than a list of all keys. -/
theorem Line.length_le {keys : List Key} (all : ∀ key, layout.Holds key → key ∈ keys)
    (isLine : layout.Line key line) : line.length ≤ keys.length :=
  (List.subperm_of_subset isLine.nodup
    fun _ inside => all _ (isLine.holds_of_mem inside)).length_le

/-! ## Subtrees -/

theorem Line.within (isLine : layout.Line key line) (inside : top ∈ line) :
    layout.Within top key :=
  ⟨line, isLine, inside⟩

theorem Within.holds (within : layout.Within top key) : layout.Holds key :=
  let ⟨_, isLine, _⟩ := within
  isLine.holds

theorem Within.top_holds (within : layout.Within top key) : layout.Holds top :=
  let ⟨_, isLine, inside⟩ := within
  isLine.holds_of_mem inside

/-- Everything that stands in a tree is in its own subtree. -/
theorem IsTree.within_self (isTree : layout.IsTree) (holds : layout.Holds key) :
    layout.Within key key :=
  let ⟨line, isLine⟩ := isTree.rooted key holds
  ⟨line, isLine, isLine.mem_self⟩

/-- A key is in a subtree exactly when it is the top or its parent is in the subtree. -/
theorem within_iff_of_isChild (isChild : layout.IsChild key parent)
    (isTree : layout.IsTree) : layout.Within top key ↔ top = key ∨ layout.Within top parent := by
  constructor
  · rintro ⟨line, isLine, inside⟩
    cases isLine with
    | root isRoot => exact absurd isChild isRoot.not_isChild
    | child isChild' above =>
        obtain rfl := isChild.parent_unique isChild'
        rcases List.mem_cons.mp inside with rfl | higher
        · exact .inl rfl
        · exact .inr ⟨_, above, higher⟩
  · rintro (rfl | ⟨line, isLine, inside⟩)
    · exact isTree.within_self isChild.holds
    · exact ⟨key :: line, .child isChild isLine, List.mem_cons_of_mem _ inside⟩

/-- A root is in no subtree but its own. -/
theorem IsRoot.within_iff (isRoot : layout.IsRoot key) : layout.Within top key ↔ top = key := by
  constructor
  · rintro ⟨line, isLine, inside⟩
    cases isLine with
    | root _ => exact List.mem_singleton.mp inside
    | child isChild _ => exact absurd isChild isRoot.not_isChild
  · rintro rfl
    exact ⟨_, .root isRoot, List.mem_singleton_self _⟩

theorem IsChild.within (isChild : layout.IsChild key parent)
    (above : layout.Within top parent) : layout.Within top key :=
  let ⟨line, isLine, inside⟩ := above
  ⟨key :: line, .child isChild isLine, List.mem_cons_of_mem _ inside⟩

theorem Within.trans (upper : layout.Within top parent) (lower : layout.Within parent key) :
    layout.Within top key := by
  obtain ⟨line, isLine, inside⟩ := lower
  obtain ⟨below, above, rfl, isLine'⟩ := isLine.exists_of_mem inside
  obtain ⟨line', isLine'', inside'⟩ := upper
  obtain rfl := isLine'.unique isLine''
  exact ⟨_, isLine, List.mem_append_right _ inside'⟩

/-- Two keys whose subtrees have a key in common are one below the other. -/
theorem Within.total {other : Key} (first : layout.Within top key)
    (second : layout.Within other key) : layout.Within top other ∨ layout.Within other top := by
  obtain ⟨line, isLine, inside⟩ := first
  obtain ⟨line', isLine', inside'⟩ := second
  obtain rfl := isLine.unique isLine'
  obtain ⟨below, above, rfl, isLine₁⟩ := isLine.exists_of_mem inside
  obtain ⟨below', above', same, isLine₂⟩ := isLine'.exists_of_mem inside'
  rcases List.append_eq_append_iff.mp same with ⟨rest, -, rfl⟩ | ⟨rest, -, rfl⟩
  · exact .inr ⟨_, isLine₁, List.mem_append_right _ isLine₂.mem_self⟩
  · exact .inl ⟨_, isLine₂, List.mem_append_right _ isLine₁.mem_self⟩

/-- Two keys that are each in the subtree of the other are the same. -/
theorem Within.antisymm (upper : layout.Within top key) (lower : layout.Within key top) :
    top = key := by
  obtain ⟨line, isLine, inside⟩ := upper
  obtain ⟨below, above, rfl, isLine₁⟩ := isLine.exists_of_mem inside
  obtain ⟨line', isLine', inside'⟩ := lower
  obtain rfl := isLine₁.unique isLine'
  obtain ⟨below', above', same, isLine₂⟩ := isLine₁.exists_of_mem inside'
  have lengths := congrArg List.length (isLine.unique isLine₂)
  have lengths' := congrArg List.length same
  simp only [List.length_append] at lengths lengths'
  have nothing : below = [] := List.eq_nil_of_length_eq_zero (by omega)
  subst nothing
  obtain ⟨rest, headTop⟩ := isLine₁.eq_cons
  obtain ⟨rest', headKey⟩ := isLine.eq_cons
  rw [List.nil_append, headTop] at headKey
  cases headKey
  rfl

/-- A parent is not in the subtree of its child. -/
theorem IsChild.not_within (isChild : layout.IsChild key parent) (isTree : layout.IsTree) :
    ¬ layout.Within key parent := by
  intro within
  have upper : layout.Within parent key :=
    isChild.within (isTree.within_self within.holds)
  obtain rfl := within.antisymm upper
  obtain ⟨line, isLine⟩ := isTree.rooted key isChild.holds
  have twice := isLine.unique (.child isChild isLine)
  have lengths := congrArg List.length twice
  simp only [List.length_cons] at lengths
  omega

/-- The parent of a key of a tree is in the tree. -/
theorem IsTree.parent_holds (isTree : layout.IsTree) (isChild : layout.IsChild key parent) :
    layout.Holds parent := by
  obtain ⟨line, isLine⟩ := isTree.rooted key isChild.holds
  cases isLine with
  | root isRoot => exact absurd isChild isRoot.not_isChild
  | child isChild' above =>
      obtain rfl := isChild.parent_unique isChild'
      exact above.holds

/-- What holds of a root and goes from parents to children holds of every key of a tree. -/
@[elab_as_elim] theorem IsTree.induction {motive : Key → Prop} (isTree : layout.IsTree)
    (key : Key) (holds : layout.Holds key) (root : ∀ key, layout.IsRoot key → motive key)
    (child : ∀ key parent, layout.IsChild key parent → layout.Holds parent → motive parent →
      motive key) : motive key := by
  obtain ⟨line, isLine⟩ := isTree.rooted key holds
  induction isLine with
  | root isRoot => exact root _ isRoot
  | child isChild above inductionHypothesis =>
      exact child _ _ isChild above.holds (inductionHypothesis above.holds)

/-- Strictly below a key stands what is in the subtree of one of its children. -/
theorem Within.exists_child (within : layout.Within top key) (isTree : layout.IsTree)
    (different : top ≠ key) : ∃ child, layout.IsChild child top ∧ layout.Within child key := by
  revert different
  refine isTree.induction (motive := fun key => layout.Within top key → top ≠ key →
    ∃ child, layout.IsChild child top ∧ layout.Within child key) key within.holds ?_ ?_ within
  · exact fun key isRoot within different => absurd (isRoot.within_iff.mp within) different
  · intro key parent isChild _ inductionHypothesis within different
    rcases (within_iff_of_isChild isChild isTree).mp within with same | above
    · exact absurd same different
    · by_cases direct : top = parent
      · subst direct
        exact ⟨key, isChild, isTree.within_self isChild.holds⟩
      · obtain ⟨child, isChild', lower⟩ := inductionHypothesis above direct
        exact ⟨child, isChild', isChild.within lower⟩

/-- A tree with a key in it has a root, and every key is in its subtree. -/
theorem IsTree.exists_root (isTree : layout.IsTree) (holds : layout.Holds key) :
    ∃ root, layout.IsRoot root ∧ layout.Within root key := by
  refine isTree.induction key holds ?_ ?_
  · exact fun key isRoot => ⟨key, isRoot, isTree.within_self isRoot.holds⟩
  · rintro key parent isChild - ⟨root, isRoot, within⟩
    exact ⟨root, isRoot, isChild.within within⟩

end Layout

end VersionedTrees
