import Mathlib.Data.List.Dedup
import VersionedTrees.Proofs.Buffer.Agreement
import VersionedTrees.Proofs.Delta.Wire
import VersionedTrees.Proofs.Donors.Normalized

/-!
# From a base to a target over the wire

A delta from a base to a target can be computed, passes the check, survives the wire, and leads from
the base back to the target, whether it is expanded or taken over by a buffer
(`Delta.between_decode_reads`). The assumptions on sizes are those of any machine: the length of a key
and that of the bytes that are sent fit into 64 bits.
-/

namespace VersionedTrees

variable {C : Type}

namespace Delta

variable [Content C] {base target : Store C} {delta : Delta C} {buffer : Buffer C}

/-- A delta that restates a target against a base, under some index of the base. -/
structure Restates (base target : Store C) (delta : Delta C) : Prop where
  base_eq : delta.base = base.id
  builds : ∃ index : DonorIndex, index.Sound base ∧ delta.tree.Builds target.id
    (Layout.plant (fun _ => none) (Normalized.restatedRows index target))

section Restated

variable (faithful : Content.Faithful C)
  (collisionFree : CollisionFree (base.preimages ++ target.preimages))
  (donor : base.Digestible) (plain : target.Digestible)

include faithful collisionFree donor plain

/-- A delta from a base to a target is computed, and it restates the target. -/
theorem result_between :
    ∃ delta, (between target.tree base.tree).result = .ok delta ∧ delta.Restates base target := by
  obtain ⟨index, built, sound⟩ :=
    DonorIndex.result_build_single donor.wellFormed donor.allContent
  obtain ⟨normalized, restated, builds⟩ :=
    Normalized.result_ofTree sound faithful collisionFree donor plain
  refine ⟨ofNormalized base.id normalized, ?_, rfl, index, sound, builds⟩
  rw [between, Read.result_bind_of_ok built, Read.result_bind_of_ok restated]
  rfl

omit faithful collisionFree donor in
/-- A delta that restates a target refers into the base. -/
theorem Restates.refersInto (restates : delta.Restates base target) :
    delta.tree.RefersInto base := by
  obtain ⟨-, index, sound, builds⟩ := restates
  exact Normalized.refersInto_restated sound plain.wellFormed plain.allContent builds

omit faithful collisionFree donor in
theorem Restates.result_verify (restates : delta.Restates base target) :
    (delta.verify base.tree).result = .ok () :=
  result_verify_iff.mpr
    ⟨restates.base_eq.symm, (restates.refersInto plain).resolves⟩

omit faithful collisionFree donor in
/-- The keys of a delta are keys of the target. -/
theorem Restates.completeKeys (restates : delta.Restates base target)
    (complete : target.CompleteKeys) : delta.tree.CompleteKeys := by
  obtain ⟨-, index, sound, builds⟩ := restates
  have fresh := Normalized.fresh_restatedRows index plain.wellFormed
  rintro key ⟨standing, found⟩
  rw [builds.layout_eq, Layout.plant_empty_eq_some_iff fresh] at found
  obtain ⟨payload, there, -⟩ := Normalized.restates_of_mem plain.wellFormed found
  exact complete key ⟨_, there⟩

/-- The rows that a delta stands for are those of the target. -/
theorem Restates.standsFor (restates : delta.Restates base target) :
    Layout.Fresh (fun _ => none) (base.standsFor delta.tree) ∧
      Layout.plant (fun _ => none) (base.standsFor delta.tree) = target.layout := by
  obtain ⟨-, index, sound, builds⟩ := restates
  have perm := Normalized.standsFor_restated sound faithful collisionFree donor plain builds
  have fresh : Layout.Fresh (fun _ => none) target.rows :=
    Layout.fresh_empty_iff.mpr plain.wellFormed.nodup_rows
  obtain ⟨fresh', same⟩ := fresh.perm perm.symm
  exact ⟨fresh', same.symm.trans plain.wellFormed.plant_rows⟩

/-- To reconstruct the delta from the base gives the target. -/
theorem Restates.reconstructs (restates : delta.Restates base target) :
    ∃ expanded, (delta.reconstruct base.tree).result = .ok expanded ∧
      expanded.Builds target.id target.layout := by
  have refers := restates.refersInto plain
  obtain ⟨fresh, same⟩ := restates.standsFor faithful collisionFree donor plain
  have sameId : delta.tree.id = target.id := by
    obtain ⟨-, index, -, builds⟩ := restates
    exact builds.id_eq
  rcases Donors.result_expand_single refers donor.wellFormed donor.allContent with
    ⟨-, expanded, ok, builds⟩ | ⟨stale, -⟩
  · rw [same, sameId] at builds
    have expands : (delta.expand base.tree).result = .ok expanded :=
      (Read.result_bind_of_ok (Read.result_require_of_true
        (decide_eq_true restates.base_eq.symm))).trans ok
    refine ⟨expanded, ?_, builds⟩
    rw [reconstruct, Read.result_bind_of_ok (restates.result_verify plain)]
    exact expands
  · exact absurd fresh stale

/-- A buffer over the base that takes the delta over shows the target. -/
theorem Restates.applies (restates : delta.Restates base target)
    (backing : buffer.backing = .store base) :
    ∃ after, (Buffer.applyDelta delta).effect buffer = (.ok (), after) ∧
      after.tree.Shows target.layout := by
  have refers := restates.refersInto plain
  obtain ⟨fresh, same⟩ := restates.standsFor faithful collisionFree donor plain
  have made : delta.base = buffer.backingTree.id := by
    rw [Buffer.backingTree, backing]
    exact restates.base_eq
  rcases Buffer.effect_replace_of_refersInto backing refers donor.wellFormed donor.allContent with
    ⟨-, after, replaced, shows⟩ | ⟨stale, -⟩
  · rw [same] at shows
    refine ⟨after, ?_, shows⟩
    rw [Buffer.applyDelta, Edit.effect_current_bind,
      Edit.effect_liftM_bind (Read.result_require_of_true (decide_eq_true made))]
    exact replaced
  · exact absurd fresh stale

end Restated

/-- A delta with the same base, the same identifier and the same layout restates the same target. -/
theorem Restates.of_decoded {decoded : Delta C} (restates : delta.Restates base target)
    (sameBase : decoded.base = delta.base)
    (builds : decoded.tree.Builds delta.tree.id delta.tree.layout) :
    decoded.Restates base target := by
  obtain ⟨made, index, sound, sent⟩ := restates
  rw [sent.layout_eq, sent.id_eq] at builds
  exact ⟨sameBase.trans made, index, sound, builds⟩

/-- Over a base with content everywhere, the delta to any target with content everywhere is computed
and passes the check. It is sent, and what is received leads from the base to the target: the
reconstruction, and any buffer over the base that applies it, answer everything like the target. -/
theorem between_decode_reads [WireContent C] (fromEdits : base.Reachable)
    (toEdits : target.Reachable) (allContent : base.AllContent) (allContent' : target.AllContent)
    (complete : target.CompleteKeys) (fit : base.KeysFit) (fit' : target.KeysFit)
    (faithful : Content.Faithful C)
    (collisionFree : CollisionFree (base.preimages ++ target.preimages)) :
    ∃ delta bytes, (between target.tree base.tree).result = .ok delta ∧
      (delta.verify base.tree).result = .ok () ∧ delta.encode.result = .ok bytes ∧
      (bytes.length < byteCapacity 8 →
        ∃ decoded, WireRead.Succeeds (decode bytes base.tree) decoded ∧
          (∃ expanded, (decoded.reconstruct base.tree).result = .ok expanded ∧
            expanded.tree.SameReads target.tree) ∧
          ∀ buffer : Buffer C, buffer.backing = .store base →
            ∃ after, (Buffer.applyDelta decoded).effect buffer = (.ok (), after) ∧
              after.tree.SameReads target.tree) := by
  have donor : base.Digestible := ⟨fromEdits.wellFormed, allContent, fit⟩
  have plain : target.Digestible := ⟨toEdits.wellFormed, allContent', fit'⟩
  obtain ⟨delta, computed, restates⟩ := result_between faithful collisionFree donor plain
  have wellFormed := (restates.refersInto plain).wellFormed
  have verified := restates.result_verify plain
  refine ⟨delta, delta.wire.encode, computed, verified, result_encode wellFormed, fun short => ?_⟩
  obtain ⟨decoded, received, sameBase, builds⟩ := result_decode wellFormed
    (restates.completeKeys plain complete) verified short
  have restates' := restates.of_decoded sameBase builds
  refine ⟨decoded, received, ?_, fun buffer backing => ?_⟩
  · obtain ⟨expanded, ok, builds⟩ := restates'.reconstructs faithful collisionFree donor plain
    have shows := builds.wellFormed.shows
    rw [builds.layout_eq] at shows
    exact ⟨expanded, ok, shows.sameReads plain.wellFormed.shows⟩
  · obtain ⟨after, applied, shows⟩ := restates'.applies faithful collisionFree donor plain backing
    exact ⟨after, applied, shows.sameReads plain.wellFormed.shows⟩

/-- A root with the same content as that of a chain, above the rest of the chain under a new key. -/
def movedEdits : List (StoreEdit String) :=
  [.insert none (.exactly (.number 1)) (.content "root"),
    .insert (some (.number 1)) (.exactly (.number 4)) (.content "middle"),
    .insert (some (.number 4)) (.exactly (.number 3)) (.content "leaf")]

/-- The delta from a chain to one whose middle has another key is sent in fewer than two hundred
bytes, and a buffer without changes takes it over. -/
theorem between_decode_reads_moved :
    let base := Store.chain
    let target := Store.ofEdits ⟨2⟩ movedEdits
    base.Reachable ∧ target.Reachable ∧ base.AllContent ∧ target.AllContent ∧
      target.CompleteKeys ∧ base.KeysFit ∧ target.KeysFit ∧ Content.Faithful String ∧
      CollisionFree (base.preimages ++ target.preimages) ∧
      ∃ delta bytes decoded, (between target.tree base.tree).result = .ok delta ∧
        (delta.verify base.tree).result = .ok () ∧ delta.encode.result = .ok bytes ∧
        bytes.length < 200 ∧ WireRead.Succeeds (decode bytes base.tree) decoded ∧
        (∃ expanded, (decoded.reconstruct base.tree).result = .ok expanded ∧
          expanded.tree.SameReads target.tree) ∧
        ∃ after, (Buffer.applyDelta decoded).effect (Buffer.unchanged (.store base)) =
          (.ok (), after) ∧ after.tree.SameReads target.tree := by
  intro base target
  have fromEdits : base.Reachable := Store.reachable_ofEdits ⟨1⟩ Store.chainEdits
  have toEdits : target.Reachable := Store.reachable_ofEdits ⟨2⟩ movedEdits
  have allContent : target.AllContent := Store.allContent_iff_entries.mpr (by decide +kernel)
  have checked : ∀ key ∈ target.keys, key.Complete ∧ key.Fits := by decide +kernel
  have checked' : ∀ key ∈ base.keys, key.Fits := by decide +kernel
  have complete : target.CompleteKeys := fun key holds =>
    (checked key (Store.mem_keys_iff.mpr holds)).1
  have fit : base.KeysFit := fun key holds => checked' key (Store.mem_keys_iff.mpr holds)
  have fit' : target.KeysFit := fun key holds => (checked key (Store.mem_keys_iff.mpr holds)).2
  have collisionFree : CollisionFree (base.preimages ++ target.preimages) :=
    collisionFree_of_nodup (fun _ inside => List.mem_dedup.mpr inside) (by decide +kernel)
  obtain ⟨delta, bytes, computed, verified, sent, reads⟩ := between_decode_reads fromEdits toEdits
    Store.allContent_chain allContent complete fit fit' Content.faithful_string collisionFree
  have length : (do
      let delta ← between target.tree base.tree
      return (← delta.encode).length).result = .ok 186 := by decide +kernel
  rw [Read.result_bind_of_ok computed, Read.result_bind_of_ok sent] at length
  have short : bytes.length = 186 := Except.ok.inj length
  have fits : bytes.length < byteCapacity 8 := by
    rw [short]
    decide
  obtain ⟨decoded, received, reconstructed, applied⟩ := reads fits
  exact ⟨fromEdits, toEdits, Store.allContent_chain, allContent, complete, fit, fit',
    Content.faithful_string, collisionFree,
    delta, bytes, decoded, computed, verified, sent, by omega, received, reconstructed,
    applied _ rfl⟩

end Delta

end VersionedTrees
