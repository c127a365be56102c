import VersionedTrees.Proofs.Donors.Restated

/-!
# Normalizing

A tree with content everywhere has a normal form against a single donor, and this has the rows that
are known beforehand (`Normalized.result_ofTree`).
-/

namespace VersionedTrees

variable {C : Type} [Content C]

namespace Donors

variable {base : Store C} {value : C} {reference : Reference} {above : Option Key}

/-- Content is the same as that of a node-reference to a node that holds it. -/
theorem result_sameContent_of_layout
    (found : base.layout reference.key = some ⟨above, .content value⟩)
    (sameTree : reference.tree = base.id) :
    ((Donors.mk [base.tree]).sameContent (.content value) (.nodeReference reference)).result =
      .ok true := by
  have points : (Payload.nodeReference reference : Payload C).reference? = some reference := rfl
  have counts : storeOf [base] reference.tree = some base := by
    rw [sameTree]
    exact List.find?_cons_of_pos (beq_self_eq_true base.id)
  have theirs : lent [base] (.nodeReference reference) = some value :=
    (lent_eq_some_iff points).mpr ⟨base, counts, Store.payload?_of_layout found⟩
  have ours : lent [base] (.content value) = some value := rfl
  have single : Donors.mk [base.tree] = ofStores [base] := rfl
  rw [single]
  exact result_sameContent_of_lent ours theirs

end Donors

namespace Normalized

variable {index : DonorIndex} {base target : Store C} {key : Key} {above : Option Key}
  {payload : Payload C}

section Visit

variable (sound : index.Sound base) (faithful : Content.Faithful C)
  (collisionFree : CollisionFree (base.preimages ++ target.preimages))
  (donor : base.Digestible) (plain : target.Digestible)

include sound faithful collisionFree donor plain

/-- A node without matching subtree refers to equal content, or keeps its own. -/
theorem result_contentPayload (found : target.layout key = some ⟨above, payload⟩)
    (missing : index.subtree? (target.subtreeDigest key) = none) :
    (contentPayload index (Donors.mk [base.tree]) key payload (target.nodeDigest key)).result =
      .ok (restated index target key payload) := by
  obtain ⟨value, rfl⟩ := plain.allContent.exists_content found
  rw [restated_of_none missing, contentPayload, Store.nodeDigest]
  cases matched : index.content? (target.contentDigest key) with
  | none => rfl
  | some reference =>
      obtain ⟨sameTree, ⟨⟨parent, there⟩, holds⟩, digest⟩ := sound.content _ _ matched
      obtain rfl :=
        Store.payload_eq_of_contentDigest faithful collisionFree donor plain holds found digest
      exact Read.result_bind_of_ok
        (Donors.result_sameContent_of_layout holds sameTree)

/-- A node is restated, and what is below it is kept unless its subtree is found. -/
theorem result_restate (found : target.layout key = some ⟨above, payload⟩) :
    (restate index (Donors.mk [base.tree]) key payload (target.nodeDigest key)).result =
      .ok (restated index target key payload,
        (index.subtree? (target.subtreeDigest key)).isNone) := by
  unfold restate
  rw [Store.nodeDigest]
  cases matched : index.subtree? (target.subtreeDigest key) with
  | some reference =>
      rw [restated_of_some matched]
      rfl
  | none =>
      have restates := result_contentPayload sound faithful collisionFree donor plain found matched
      obtain ⟨value, rfl⟩ := plain.allContent.exists_content found
      exact Read.result_bind_of_ok restates

/-- There is a normal form, and it has the rows that are known beforehand. -/
theorem result_ofTree :
    ∃ normalized, (ofTree index (Donors.mk [base.tree]) target.tree).result = .ok normalized ∧
      normalized.tree.Builds target.id
        (Layout.plant (fun _ => none) (restatedRows index target)) := by
  have digests : (index.digestsOf target.tree (Donors.mk [base.tree])).result =
      .ok target.digestTable :=
    plain.wellFormed.yields_ofTree Read.yields plain.allContent
  have restates : ∀ key standing, target.layout key = some standing → ∃ digest,
      target.digestTable.nodes[key]? = some digest ∧
        (restate index (Donors.mk [base.tree]) key standing.payload digest).result =
          .ok (decided index target key standing.payload) := fun key standing found =>
    ⟨_, plain.wellFormed.getElem?_digestTable ⟨_, found⟩,
      result_restate sound faithful collisionFree donor plain found⟩
  obtain ⟨normalized, ok, restated⟩ := restates_ofTree plain.wellFormed restates digests
  rw [restatedRows_eq]
  exact ⟨normalized, ok, restated.builds⟩

end Visit

end Normalized

end VersionedTrees
