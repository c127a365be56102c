import VersionedTrees.Delta.Basic
import VersionedTrees.Proofs.Buffer.Takeover

/-!
# Verified deltas

A delta passes the check against a base exactly when it was made for the base and all its references
point at nodes of the base, whatever tree the base is (`Delta.result_verify_tree_iff`) and for stores
in terms of their layout (`Delta.result_verify_iff`). If its tree-references have no children either,
it can be taken over and expanded (`Delta.refersInto_of_verify`).
-/

namespace VersionedTrees

/-- A reference points into a tree, at a node that the tree contains. -/
def Reference.PointsInto {C : Type} (reference : Reference) (tree : Tree C) : Prop :=
  reference.tree = tree.id ∧ (tree.contains reference.key).result = .ok true

namespace Store

variable {C : Type} {store : Store C}

theorem pointsInto_iff {reference : Reference} : reference.PointsInto store.tree ↔
    reference.tree = store.id ∧ store.layout.Holds reference.key := by
  have contains : (store.tree.contains reference.key).result = .ok (store.contains reference.key) :=
    rfl
  rw [Reference.PointsInto, contains, Except.ok.injEq, contains_iff_holds]
  rfl

/-- Tree-references have no children of their own. -/
def LeafReferences (store : Store C) : Prop :=
  ∀ key reference, store.payload? key = some (.treeReference reference) →
    (store.tree.children key).result = .ok []

theorem leafReferences_of_entries (all : store.entries.all (fun entry =>
    !entry.2.isTreeReference || decide ((store.tree.children entry.1).result = .ok [])) = true) :
    store.LeafReferences := by
  intro key reference found
  rw [payload?_eq, Option.map_eq_some_iff] at found
  obtain ⟨standing, found, payload⟩ := found
  have checked := List.all_eq_true.mp all (key, standing.payload) (mem_entries_iff.mpr ⟨_, found⟩)
  rw [payload] at checked
  exact of_decide_eq_true checked

/-- A store whose payloads resolve in a base and whose tree-references have no children refers into
the base. -/
theorem RefersInto.of_leafReferences {base : Store C} (wellFormed : store.WellFormed)
    (resolves : ∀ key standing, store.layout key = some standing → base.Resolves standing.payload)
    (childless : store.LeafReferences) : store.RefersInto base where
  wellFormed := wellFormed
  resolves := resolves
  leaf key child parent reference found isChild := by
    have listed := childless key reference (payload?_of_layout found)
    rw [wellFormed.shows.result_children ⟨_, found⟩, Except.ok.injEq] at listed
    have inside := (wellFormed.listed.mem_iff key child).mpr isChild
    rw [listed] at inside
    exact absurd inside List.not_mem_nil

end Store

namespace Delta

variable {C : Type} {base : Store C} {delta : Delta C} {key : Key} {reference : Reference}

theorem mem_references_iff : (key, reference) ∈ delta.references ↔
    ∃ standing, delta.tree.layout key = some standing ∧
      standing.payload.reference? = some reference := by
  simp only [references, List.mem_filterMap, Option.map_eq_some_iff, Prod.mk.injEq, Prod.exists]
  constructor
  · rintro ⟨_, payload, inside, _, points, rfl, rfl⟩
    obtain ⟨parent, found⟩ := Store.mem_entries_iff.mp inside
    exact ⟨_, found, points⟩
  · rintro ⟨⟨parent, payload⟩, found, points⟩
    exact ⟨key, payload, Store.mem_entries_iff.mpr ⟨parent, found⟩, reference, points, rfl, rfl⟩

theorem result_verifyReference_iff {tree : Tree C} :
    (delta.verifyReference tree key reference).result = .ok () ↔
      reference.tree = delta.base ∧ (tree.contains reference.key).result = .ok true := by
  rw [verifyReference]
  constructor
  · intro ok
    obtain ⟨⟨⟩, sameTree, ok⟩ := Read.result_bind_eq_ok ok
    obtain ⟨there, contains, ok⟩ := Read.result_bind_eq_ok ok
    rw [Read.result_require_eq_ok ok] at contains
    exact ⟨of_decide_eq_true (Read.result_require_eq_ok sameTree), contains⟩
  · rintro ⟨sameTree, contains⟩
    rw [Read.result_bind_of_ok (Read.result_require_of_true (decide_eq_true sameTree)),
      Read.result_bind_of_ok contains]
    rfl

/-- A delta passes the check against any tree if it was made for the tree and its references point
into it. -/
theorem result_verify_tree_iff {tree : Tree C} : (delta.verify tree).result = .ok () ↔
    tree.id = delta.base ∧ ∀ key standing, delta.tree.layout key = some standing →
      ∀ reference, standing.payload.reference? = some reference → reference.PointsInto tree := by
  have checked : (delta.verify tree).result = .ok () ↔
      tree.id = delta.base ∧ ∀ entry ∈ delta.references,
        (delta.verifyReference tree entry.1 entry.2).result = .ok () := by
    rw [verify]
    constructor
    · intro ok
      obtain ⟨⟨⟩, made, ok⟩ := Read.result_bind_eq_ok ok
      obtain ⟨⟨⟩, references, -⟩ := Read.result_bind_eq_ok ok
      exact ⟨of_decide_eq_true (Read.result_require_eq_ok made),
        Read.result_forM_eq_ok_iff.mp references⟩
    · rintro ⟨made, references⟩
      have required : (delta.requireBase tree).result = .ok () :=
        Read.result_require_of_true (decide_eq_true made)
      rw [Read.result_bind_of_ok required,
        Read.result_bind_of_ok (Read.result_forM_eq_ok_iff.mpr references)]
      rfl
  rw [checked]
  apply and_congr_right
  intro made
  simp only [Prod.forall, mem_references_iff, result_verifyReference_iff, ← made]
  constructor
  · intro all key standing found reference points
    exact all key reference ⟨standing, found, points⟩
  · rintro all key reference ⟨standing, found, points⟩
    exact all key standing found reference points

/-- A delta passes the check if it was made for the base and its payloads resolve there. -/
theorem result_verify_iff : (delta.verify base.tree).result = .ok () ↔
    base.id = delta.base ∧
      ∀ key standing, delta.tree.layout key = some standing → base.Resolves standing.payload := by
  simp only [result_verify_tree_iff, Store.pointsInto_iff]
  rfl

/-- A delta that passed the check and whose tree-references have no children refers into the base. -/
theorem refersInto_of_verify (wellFormed : delta.tree.WellFormed)
    (ok : (delta.verify base.tree).result = .ok ())
    (childless : delta.tree.LeafReferences) : delta.tree.RefersInto base :=
  .of_leafReferences wellFormed (result_verify_iff.mp ok).2 childless

end Delta

end VersionedTrees
