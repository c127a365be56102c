import VersionedTrees.Donors.Index
import VersionedTrees.Proofs.Digest.Subtrees
import VersionedTrees.Proofs.Donors.Expansion
import VersionedTrees.Proofs.Donors.Matches

/-!
# The index of a single donor

A donor without references has its digests computed, whatever it holds, so that there is an index
(`DonorIndex.result_build_single`). What the index finds for a digest is a node of the donor that has
this digest (`DonorIndex.Sound`).
-/

namespace VersionedTrees

variable {C : Type} [Content C]

namespace DonorIndex

variable {base : Store C} {digest : Digest} {reference : Reference}

/-- What an index finds are nodes of a store that have the digests. -/
structure Sound (index : DonorIndex) (base : Store C) : Prop where
  subtree : ∀ digest reference, index.subtree? digest = some reference →
    reference.tree = base.id ∧ base.layout.Holds reference.key ∧
      base.subtreeDigest reference.key = digest
  content : ∀ digest reference, index.content? digest = some reference →
    reference.tree = base.id ∧ base.layout.Holds reference.key ∧
      base.contentDigest reference.key = digest

/-- What a table of first entries holds is one of the entries. -/
theorem mem_of_firstEntries {α : Type} {entries : List α} {label : α → Digest}
    {value : α → Reference} {found : Std.TreeMap Digest Reference}
    (there : (entries.foldl (fun found entry => found.insertIfNew (label entry) (value entry))
      found)[digest]? = some reference) :
    found[digest]? = some reference ∨
      ∃ entry ∈ entries, label entry = digest ∧ value entry = reference := by
  rw [getElem?_firstEntries, Option.or_eq_some_iff] at there
  rcases there with earlier | ⟨-, first⟩
  · exact .inl earlier
  · obtain ⟨entry, found, rfl⟩ := Option.map_eq_some_iff.mp first
    have labelled := List.find?_some found
    exact .inr ⟨entry, List.mem_of_find?_eq_some found, of_decide_eq_true labelled, rfl⟩

/-- A donor without references needs no digests but its own. -/
theorem effect_computeDigests (wellFormed : base.WellFormed) (allContent : base.AllContent)
    (levels : Nat) :
    (computeDigests (Donors.mk [base.tree]) (levels + 1) [] base.id).effect ∅ =
      (.ok (), (∅ : DonorDigests).insert base.id base.digestTable) := by
  have absent : (∅ : DonorDigests).contains base.id = false := Std.TreeMap.contains_emptyc
  rw [computeDigests, Edit.effect_current_bind, absent, if_neg Bool.false_ne_true,
    if_neg List.not_mem_nil, Edit.effect_liftM_bind (Donors.result_find_single base)]
  exact Edit.effect_bind_of_ok
    (wellFormed.yields_ofTree (Edit.yields DonorDigests) allContent ∅)

/-- The entries of a donor are its nodes with their digests. -/
theorem mem_entriesOf {digests : DonorDigests} (wellFormed : base.WellFormed)
    (computed : digests[base.id]? = some base.digestTable) {entry : Reference × NodeDigest}
    (inside : entry ∈ entriesOf digests base.id) :
    entry.1.tree = base.id ∧ base.layout.Holds entry.1.key ∧
      entry.2 = base.nodeDigest entry.1.key := by
  rw [entriesOf, computed] at inside
  obtain ⟨key, listed, told⟩ := List.mem_filterMap.mp inside
  have holds : base.layout.Holds key := wellFormed.mem_map_rows_iff.mp listed
  rw [wellFormed.getElem?_digestTable holds, Option.map_some, Option.some.injEq] at told
  subst told
  exact ⟨rfl, holds, rfl⟩

/-- A single donor without references has an index, and what it finds has the digests. -/
theorem result_build_single (wellFormed : base.WellFormed) (allContent : base.AllContent) :
    ∃ index, (build (Donors.mk [base.tree])).result = .ok index ∧ index.Sound base := by
  let digests : DonorDigests := (∅ : DonorDigests).insert base.id base.digestTable
  have computed : digests[base.id]? = some base.digestTable := by simp [digests]
  have identified : identifiers (Donors.mk [base.tree]) = [base.id] := rfl
  have visited : (([base.id].forM (computeDigests (Donors.mk [base.tree])
      ((Donors.mk [base.tree]).trees.length + 1) [])).toRead ∅).result = .ok (⟨⟩, digests) := by
    apply Edit.result_toRead_of_ok
    have first := effect_computeDigests wellFormed allContent [base.tree].length
    exact (Edit.effect_forM_cons_of_ok first).trans (Edit.effect_forM_nil _ _)
  have entries : [base.id].flatMap (entriesOf digests) = entriesOf digests base.id :=
    List.flatMap_singleton _ _
  refine ⟨⟨digests, firstSubtrees (entriesOf digests base.id),
    firstContents (entriesOf digests base.id)⟩, ?_, ?_, ?_⟩
  · rw [build, buildInOrder, identified, Read.result_bind_of_ok visited]
    simp only [entries]
    rfl
  all_goals
    intro digest reference found
    rcases mem_of_firstEntries found with empty | ⟨entry, inside, rfl, rfl⟩
    · simp at empty
    · obtain ⟨sameTree, holds, same⟩ := 
        mem_entriesOf wellFormed computed (List.mem_filter.mp inside).1
      exact ⟨sameTree, holds, by rw [same]; rfl⟩

end DonorIndex

end VersionedTrees
