import VersionedTrees.Proofs.Digest.Subtrees

/-!
# Digests tell subtrees apart

If no two of the byte strings that are digested for two stores share a digest, and contents are written
without loss (`Content.Faithful`), then nodes with the same content digest hold the same content, and
nodes with the same subtree digest have the same content at and below them, under the same keys and in
the same order (`Store.matches_of_subtreeDigest`). Only the keys of the two nodes themselves may differ.
-/

namespace VersionedTrees

/-- No two different byte strings of a list share a digest. -/
def CollisionFree (inputs : List (List UInt8)) : Prop :=
  ∀ left ∈ inputs, ∀ right ∈ inputs, Digest.of left = Digest.of right → left = right

/-- Byte strings whose digests all differ share no digest, however often each of them comes. -/
theorem collisionFree_of_nodup {inputs different : List (List UInt8)}
    (covers : ∀ bytes ∈ inputs, bytes ∈ different)
    (nodup : (different.map Digest.of).Nodup) : CollisionFree inputs :=
  fun left inside right inside' same =>
    List.inj_on_of_nodup_map nodup (covers left inside) (covers right inside') same

namespace Store

variable {C : Type} [Content C]

/-- The byte strings that are digested for a store. -/
def preimages (store : Store C) : List (List UInt8) :=
  store.rows.flatMap fun row => [store.contentBytes row.1, store.subtreePreimage row.1]

/-- The lengths of all keys fit into the bytes for them. -/
def KeysFit (store : Store C) : Prop :=
  ∀ key, store.layout.Holds key → key.Fits

/-- A well-formed store with content everywhere, under keys whose lengths fit. -/
structure Digestible (store : Store C) : Prop where
  wellFormed : store.WellFormed
  allContent : store.AllContent
  keysFit : store.KeysFit

variable {left right : Store C} {key key' : Key} {above above' : Option Key}
  {payload payload' : Payload C}

theorem WellFormed.mem_preimages (wellFormed : left.WellFormed) (holds : left.layout.Holds key) :
    left.contentBytes key ∈ left.preimages ∧ left.subtreePreimage key ∈ left.preimages := by
  obtain ⟨standing, found⟩ := holds
  have inside := wellFormed.mem_rows_iff.mpr found
  constructor <;> exact List.mem_flatMap.mpr ⟨_, inside, by simp⟩

omit [Content C] in
/-- The keys of children fit, whatever is told with them. -/
theorem Digestible.fits_children (digestible : left.Digestible) (digest : Key → Digest) :
    ∀ child ∈ (left.tree.childList key).map fun child => (child, digest child), child.1.Fits := by
  intro child inside
  obtain ⟨other, listed, rfl⟩ := List.mem_map.mp inside
  exact digestible.keysFit other ((digestible.wellFormed.listed.mem_iff key other).mp listed).holds

section Matching

variable (faithful : Content.Faithful C)
  (collisionFree : CollisionFree (left.preimages ++ right.preimages))
  (first : left.Digestible) (second : right.Digestible)

include faithful collisionFree first second

/-- Nodes with the same content digest hold the same content. -/
theorem payload_eq_of_contentDigest (found : left.layout key = some ⟨above, payload⟩)
    (found' : right.layout key' = some ⟨above', payload'⟩)
    (same : left.contentDigest key = right.contentDigest key') : payload = payload' := by
  have bytes : left.contentBytes key = right.contentBytes key' :=
    collisionFree _ (List.mem_append_left _ (first.wellFormed.mem_preimages ⟨_, found⟩).1) _
      (List.mem_append_right _ (second.wellFormed.mem_preimages ⟨_, found'⟩).1) same
  obtain ⟨value, rfl⟩ := first.allContent.exists_content found
  obtain ⟨value', rfl⟩ := second.allContent.exists_content found'
  rw [contentBytes_of_layout found, contentBytes_of_layout found'] at bytes
  rw [faithful value value' bytes]

omit faithful in
/-- Nodes with the same subtree digest have the same children, with the same subtree digests. -/
theorem children_eq_of_subtreeDigest (holds : left.layout.Holds key)
    (holds' : right.layout.Holds key')
    (same : left.subtreeDigest key = right.subtreeDigest key') :
    left.contentDigest key = right.contentDigest key' ∧
      left.tree.childList key = right.tree.childList key' ∧
      ∀ child ∈ left.tree.childList key, left.subtreeDigest child = right.subtreeDigest child := by
  rw [first.wellFormed.subtreeDigest_eq holds, second.wellFormed.subtreeDigest_eq holds'] at same
  have preimages : left.subtreePreimage key = right.subtreePreimage key' :=
    collisionFree _ (List.mem_append_left _ (first.wellFormed.mem_preimages holds).2) _
      (List.mem_append_right _ (second.wellFormed.mem_preimages holds').2) same
  obtain ⟨contents, children⟩ := subtreeBytes_injective (first.fits_children left.subtreeDigest)
    (second.fits_children right.subtreeDigest) preimages
  have keys : left.tree.childList key = right.tree.childList key' := by
    have firsts := congrArg (List.map Prod.fst) children
    simpa [Function.comp_def] using firsts
  rw [← keys] at children
  refine ⟨contents, keys, fun child inside => ?_⟩
  exact congrArg Prod.snd (List.map_inj_left.mp children child inside)

/-- Nodes with the same subtree digest have the same content at and below them. -/
theorem matches_of_subtreeDigest (found : left.layout key = some ⟨above, payload⟩)
    (found' : right.layout key' = some ⟨above', payload'⟩)
    (same : left.subtreeDigest key = right.subtreeDigest key') :
    payload = payload' ∧ left.copiesBelow key key' = right.rowsBelow key' := by
  have enough := first.wellFormed.shows.exhausts ⟨_, found⟩ (Nat.le_refl _)
  generalize left.tree.span = levels at enough
  induction levels generalizing key key' above above' payload payload' with
  | zero => exact enough.elim
  | succ levels inductionHypothesis =>
      obtain ⟨contents, children, digests⟩ := children_eq_of_subtreeDigest collisionFree first
        second ⟨_, found⟩ ⟨_, found'⟩ same
      constructor
      · exact payload_eq_of_contentDigest faithful collisionFree first second found found' contents
      · rw [← second.wellFormed.copiesBelow_self, copiesBelow, copiesBelow, ← children]
        apply List.flatMap_congr
        intro child inside
        obtain ⟨lower, below⟩ := (first.wellFormed.listed.mem_iff key child).mp inside
        obtain ⟨lower', below'⟩ :=
          (second.wellFormed.listed.mem_iff key' child).mp (children ▸ inside)
        obtain ⟨rfl, copies⟩ :=
          inductionHypothesis below below' (digests child inside) (enough child inside)
        rw [first.wellFormed.copiesBelow_self] at copies
        rw [below, below', Option.elim_some, Option.elim_some, copies]

end Matching

end Store

end VersionedTrees
