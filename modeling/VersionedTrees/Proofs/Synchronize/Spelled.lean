import VersionedTrees.Proofs.Synchronize.Writing
import VersionedTrees.Proofs.View.Expansion

/-!
# Sources with tree-references

A source whose tree-references sit under the keys of their targets stands for its expansion
(`Store.Spells`): its own nodes, with the content that they lend, and the base nodes strictly below its
tree-references (`Store.Covers`). The source has no such base node itself, since a key would come twice in
the expansion then.
-/

namespace VersionedTrees

variable {C : Type}

namespace Store

variable {source base expanded : Store C} {key top other : Key} {parent : Option Key}
  {payload : Payload C} {standing : Standing C} {done rest : List (Layout.Row C)}
  {row : Layout.Row C}

/-- A store has a tree-reference under a key. -/
def Refers (source : Store C) (key : Key) : Prop :=
  ∃ parent reference, source.layout key = some ⟨parent, .treeReference reference⟩

/-- A base key is strictly below a key under which a source has a tree-reference. -/
def Covers (source base : Store C) (key : Key) : Prop :=
  ∃ top, source.Refers top ∧ base.layout.Within top key ∧ top ≠ key

/-- A key comes before another one in pre-order. -/
def Precedes (source : Store C) (first second : Key) : Prop :=
  [first, second].Sublist (source.rows.map Prod.fst)

theorem Refers.holds (refers : source.Refers key) : source.layout.Holds key :=
  let ⟨_, _, found⟩ := refers
  ⟨_, found⟩

theorem refers_iff (found : source.layout key = some standing) :
    source.Refers key ↔ standing.payload.isTreeReference = true := by
  obtain ⟨parent, payload⟩ := standing
  constructor
  · rintro ⟨parent, reference, found'⟩
    rw [found] at found'
    cases found'
    rfl
  · intro isTreeReference
    cases payload with
    | content value => cases isTreeReference
    | nodeReference reference => cases isTreeReference
    | treeReference reference => exact ⟨parent, reference, found⟩

/-! ## The order of the rows -/

theorem precedes_of_split (split : source.rows = done ++ row :: rest)
    (later : key ∈ rest.map Prod.fst) : source.Precedes row.1 key := by
  rw [Precedes, split, List.map_append, List.map_cons]
  exact (List.Sublist.cons_cons _ (List.singleton_sublist.mpr later)).trans
    (List.sublist_append_right _ _)

theorem WellFormed.not_precedes_self (wellFormed : source.WellFormed) : ¬ source.Precedes key key := by
  intro precedes
  have nodup := wellFormed.nodup_rows.sublist precedes
  exact absurd nodup (by simp)

/-- What a row precedes is not among the rows before it. -/
theorem WellFormed.not_mem_of_precedes (wellFormed : source.WellFormed)
    (split : source.rows = done ++ row :: rest) (precedes : source.Precedes row.1 key) :
    key ∉ done.map Prod.fst := by
  have nodup := wellFormed.nodup_rows
  rw [split, List.map_append, List.map_cons] at nodup
  obtain ⟨-, -, apart⟩ := List.nodup_append.mp nodup
  rw [Precedes, split, List.map_append, List.map_cons] at precedes
  obtain ⟨upper, lower, same, first, second⟩ := List.cons_sublist_iff.mp precedes
  have second := List.singleton_sublist.mp second
  intro inside
  rcases List.append_eq_append_iff.mp same with ⟨_, -, rest_eq⟩ | ⟨_, done_eq, -⟩
  · exact apart key inside key (rest_eq ▸ List.mem_append_right _ second) rfl
  · exact apart row.1 (done_eq ▸ List.mem_append_left _ first) row.1 List.mem_cons_self rfl

/-- No key comes before one that it is above. -/
theorem WellFormed.not_within_of_precedes (wellFormed : source.WellFormed)
    (split : source.rows = done ++ row :: rest) (precedes : source.Precedes row.1 key) :
    ¬ source.layout.Within key row.1 := by
  intro within
  have split' : source.rows = (done ++ [row]) ++ rest := by rw [split, List.append_assoc]; rfl
  have inside : row.1 ∈ (done ++ [row]).map Prod.fst :=
    List.mem_map_of_mem (List.mem_append_right _ (List.mem_singleton_self row))
  have inside := wellFormed.mem_of_within_of_split split' inside within
  rw [List.map_append, List.mem_append] at inside
  rcases inside with before | same
  · exact wellFormed.not_mem_of_precedes split precedes before
  · rw [List.mem_singleton.mp same] at precedes
    exact wellFormed.not_precedes_self precedes

/-- A key of a store that is not among its first rows comes with the next row or later. -/
theorem WellFormed.precedes_of_not_mem (wellFormed : source.WellFormed)
    (split : source.rows = done ++ row :: rest) (holds : source.layout.Holds key)
    (new : key ∉ done.map Prod.fst) : row.1 = key ∨ source.Precedes row.1 key := by
  have inside := wellFormed.mem_map_rows_iff.mpr holds
  rw [split, List.map_append, List.map_cons, List.mem_append, List.mem_cons] at inside
  rcases inside with before | same | later
  · exact absurd before new
  · exact .inl same.symm
  · exact .inr (precedes_of_split split later)

/-! ## The expansion of a source -/

/-- A source has its tree-references under the keys of their targets, and an expansion spells out what
they stand for. -/
structure Spells (source base expanded : Store C) : Prop extends Stitches source base expanded where
  selfKeyed : ∀ key parent reference,
    source.layout key = some ⟨parent, .treeReference reference⟩ → reference.key = key

namespace Spells

variable (spells : Spells source base expanded)

include spells

theorem reference_eq {reference : Reference}
    (found : source.layout key = some ⟨parent, .treeReference reference⟩) :
    reference = ⟨base.id, key⟩ := by
  obtain ⟨sameTree, -⟩ := spells.refers.resolves key _ found reference rfl
  obtain ⟨tree, target⟩ := reference
  obtain rfl : target = key := spells.selfKeyed key parent _ found
  obtain rfl : tree = base.id := sameTree
  rfl

theorem admits (found : source.layout key = some standing) : base.Admits key standing.payload := by
  refine (spells.refers.resolves key standing found).admits ?_
  rintro reference stored
  obtain ⟨parent, payload⟩ := standing
  obtain rfl : payload = _ := stored
  exact spells.selfKeyed key parent reference found

theorem base_holds (refers : source.Refers top) : base.layout.Holds top := by
  obtain ⟨parent, reference, found⟩ := refers
  exact (spells.admits found).2

/-- Nothing of the source is below a tree-reference. -/
theorem alone (refers : source.Refers top) (within : source.layout.Within top key) : top = key := by
  by_contra different
  obtain ⟨parent, reference, found⟩ := refers
  obtain ⟨child, isChild, -⟩ := within.exists_child spells.refers.wellFormed.isTree different
  exact spells.refers.leaf top child parent reference found isChild

/-- What is below a tree-reference in the base is grafted below it in the expansion. -/
theorem grafts (refers : source.Refers top) (within : base.layout.Within top other)
    (isChild : base.layout.IsChild key other) :
    ∃ reference, reference.key = top ∧ Grafts source base top reference key other := by
  obtain ⟨parent, reference, found⟩ := refers
  obtain rfl := spells.selfKeyed top parent reference found
  exact ⟨reference, rfl, ⟨parent, found⟩, isChild, within⟩

theorem exists_grafts (covers : source.Covers base key) :
    ∃ top reference above, reference.key = top ∧ Grafts source base top reference key above := by
  obtain ⟨top, refers, within, different⟩ := covers
  rcases within.holds.isRoot_or_isChild with isRoot | ⟨above, isChild⟩
  · exact absurd (isRoot.within_iff.mp within) different
  · have within := ((Layout.within_iff_of_isChild isChild spells.wellFormed.isTree).mp
      within).resolve_left different
    obtain ⟨reference, same, grafts⟩ := spells.grafts refers within isChild
    exact ⟨top, reference, above, same, grafts⟩

/-- The source has none of the base nodes below its tree-references. -/
theorem absent_of_covers (covers : source.Covers base key) : source.layout key = none := by
  obtain ⟨top, reference, above, -, grafts⟩ := spells.exists_grafts covers
  exact spells.absent_of_grafts grafts

/-- No node of the source is below a tree-reference in the base, other than the tree-reference. -/
theorem eq_of_within (refers : source.Refers top) (holds : source.layout.Holds key)
    (within : base.layout.Within top key) : top = key := by
  by_contra different
  exact Layout.holds_iff_ne_none.mp holds (spells.absent_of_covers ⟨top, refers, within, different⟩)

/-- The base subtrees of two tree-references have no key in common. -/
theorem eq_of_within_both (refers : source.Refers top) (refers' : source.Refers other)
    (within : base.layout.Within top key) (within' : base.layout.Within other key) : top = other := by
  rcases within.total within' with below | below
  · exact spells.eq_of_within refers refers'.holds below
  · exact (spells.eq_of_within refers' refers.holds below).symm

theorem layout_of_source (found : source.layout key = some ⟨parent, payload⟩) :
    expanded.layout key = some ⟨parent, base.lend payload⟩ :=
  spells.layout_iff.mpr (.inl ⟨payload, found, rfl⟩)

theorem layout_of_covers (covers : source.Covers base key) :
    expanded.layout key = base.layout key := by
  obtain ⟨top, reference, above, rfl, grafts⟩ := spells.exists_grafts covers
  obtain ⟨payload, found⟩ := grafts.isChild
  rw [found]
  refine spells.layout_iff.mpr (.inr ⟨_, reference, above, grafts, found, ?_⟩)
  split
  · subst above
    rfl
  · rfl

theorem holds_iff : expanded.layout.Holds key ↔ source.layout.Holds key ∨ source.Covers base key := by
  constructor
  · rintro ⟨⟨parent, payload⟩, found⟩
    rcases spells.layout_iff.mp found with ⟨own, found, -⟩ | ⟨top, reference, above, grafts, -, -⟩
    · exact .inl ⟨_, found⟩
    · obtain ⟨higher, found⟩ := grafts.found
      have same := spells.selfKeyed top higher reference found
      refine .inr ⟨top, ⟨higher, reference, found⟩, same ▸ grafts.isChild.within grafts.within, ?_⟩
      exact fun equal => grafts.ne_target spells.wellFormed (equal.symm.trans same.symm)
  · rintro (⟨⟨parent, payload⟩, found⟩ | covers)
    · exact ⟨_, spells.layout_of_source found⟩
    · rw [Layout.holds_iff_ne_none, spells.layout_of_covers covers, ← Layout.holds_iff_ne_none]
      obtain ⟨top, -, within, -⟩ := covers
      exact within.holds

theorem aligned : expanded.layout.Aligned source.layout source.layout.Holds where
  sameParent key := by
    rintro ⟨⟨parent, payload⟩, found⟩
    rw [spells.layout_of_source found, found]
    rfl
  closed _ _ _ isChild := spells.refers.wellFormed.isTree.parent_holds isChild

/-- The base subtrees of the tree-references are subtrees of the expansion. -/
theorem within_expanded (isTree : expanded.layout.IsTree) (refers : source.Refers top)
    (within : base.layout.Within top key) : expanded.layout.Within top key := by
  have baseTree := spells.wellFormed.isTree
  have top_holds : expanded.layout.Holds top :=
    spells.holds_iff.mpr (.inl refers.holds)
  have holds := within.holds
  revert within
  refine baseTree.induction key holds ?_ ?_
  · intro key isRoot within
    obtain rfl := isRoot.within_iff.mp within
    exact isTree.within_self top_holds
  · intro key above isChild _ inductionHypothesis within
    rcases (Layout.within_iff_of_isChild isChild baseTree).mp within with rfl | higher
    · exact isTree.within_self top_holds
    · by_cases same : top = key
      · subst same
        exact isTree.within_self top_holds
      · have isChild' : expanded.layout.IsChild key above := by
          rwa [Layout.isChild_iff, spells.layout_of_covers ⟨top, refers, within, same⟩,
            ← Layout.isChild_iff]
        exact isChild'.within (inductionHypothesis higher)

end Spells

end Store

end VersionedTrees
