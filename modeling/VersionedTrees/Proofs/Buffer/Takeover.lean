import VersionedTrees.Proofs.Buffer.Replace

/-!
# Taking a verified delta over

A delta whose references point into the base, and whose tree-references have no children, withholds
nothing. So the rows that it fills an overlay with are told by the delta (`Store.taken`), and the visit
succeeds exactly when no key comes up twice among them (`Replacement.plants_visit`).
-/

namespace VersionedTrees

variable {C : Type}

/-- All references of a store point into a base, and tree-references have no children. -/
structure Store.RefersInto (source base : Store C) : Prop where
  wellFormed : source.WellFormed
  resolves : ∀ key standing, source.layout key = some standing → base.Resolves standing.payload
  leaf : ∀ key child parent reference,
    source.layout key = some ⟨parent, .treeReference reference⟩ → ¬ source.layout.IsChild child key

namespace Store.RefersInto

variable {source base : Store C} {key : Key} {above : Option Key} {payload : Payload C}

/-- A tree-reference of a delta has no children. -/
theorem childList_eq_nil {reference : Reference} (refers : source.RefersInto base)
    (found : source.layout key = some ⟨above, .treeReference reference⟩) :
    source.tree.childList key = [] := by
  apply List.eq_nil_iff_forall_not_mem.mpr
  intro child inside
  exact refers.leaf key child above reference found
    ((refers.wellFormed.listed.mem_iff key child).mp inside)

/-- Every node offers all of its rows. -/
theorem offered_eq_taken (refers : source.RefersInto base)
    (found : source.layout key = some ⟨above, payload⟩) :
    base.offered source.tree (key, above) = (base.taken (key, ⟨above, payload⟩)).map some := by
  refine Store.offered_eq_taken (Buffer.result_payload_of_found (Buffer.result_node_base found))
    (refers.resolves key _ found) (refers.wellFormed.shows.result_children ⟨_, found⟩) ?_
  intro isTreeReference
  obtain ⟨reference, rfl⟩ := Payload.exists_of_isTreeReference isTreeReference
  exact refers.childList_eq_nil found

/-- What the nodes offer in pre-order are the rows of the delta, as they are taken. -/
theorem flatMap_offered {root : Key} (refers : source.RefersInto base)
    (isRoot : source.layout.IsRoot root) :
    (preorder source.tree.itemsBelow (source.tree.levels + 1) (root, none)).flatMap
        (base.offered source.tree) =
      ((source.rowsFrom root).flatMap base.taken).map some := by
  have enough := refers.wellFormed.shows.exhausts isRoot.holds (Nat.le_refl _)
  obtain ⟨payload, found⟩ := isRoot
  rw [Store.rowsFrom, ← preorder_eq_of_exhausts enough (Nat.le_add_right _ 2),
    ← source.flatMap_preorder_items base.taken _ (root, none), List.map_flatMap]
  refine List.flatMap_congr fun item inside => ?_
  obtain ⟨key, above⟩ := item
  obtain ⟨payload, found⟩ :=
    refers.wellFormed.placed_of_mem_preorder ⟨payload, found⟩ inside
  rw [refers.offered_eq_taken found, found]
  rfl

end Store.RefersInto

namespace Replacement

variable {base source : Store C} {buffer : Buffer C}

/-- The visit takes all rows of the delta over. -/
theorem plants_visit {root : Key} (refers : source.RefersInto base) (wellFormed : base.WellFormed)
    (allContent : base.AllContent) (isRoot : source.layout.IsRoot root)
    (fills : buffer.Fills base fun _ => none) :
    Plants (Filling base) True
      (depthFirst (step source.tree) (source.tree.levels + 1) (root, none)) { buffer := buffer }
      (fun _ => none) ((source.rowsFrom root).flatMap base.taken) () := by
  apply Heeds.plants
  rw [← refers.flatMap_offered isRoot]
  exact heeds_visit wellFormed allContent fills source.tree root _

end Replacement

end VersionedTrees
