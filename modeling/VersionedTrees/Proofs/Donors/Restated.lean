import VersionedTrees.Donors.Normalized
import VersionedTrees.Proofs.Digest.Matching
import VersionedTrees.Proofs.Donors.Index
import VersionedTrees.Proofs.Donors.Restating

/-!
# Normal forms stand for what they restate

A tree with content everywhere is restated against a single donor by known rows
(`Normalized.restatedRows`): a node whose subtree the index finds becomes a tree-reference with nothing
below it, and any other node becomes a node-reference or stays as it is. As digests tell subtrees
apart, the normal form refers into the donor and stands for the rows of the tree
(`Normalized.refersInto_restated`, `Normalized.standsFor_restated`).
-/

namespace VersionedTrees

variable {C : Type} [Content C]

namespace Normalized

variable {index : DonorIndex} {base target : Store C} {normalized : Normalized C} {layout : Layout C}
  {key : Key} {above : Option Key} {payload : Payload C} {reference : Reference} {levels : Nat}

/-! ## The rows of a normal form -/

/-- What the payload of a node becomes. -/
def restated (index : DonorIndex) (target : Store C) (key : Key) (payload : Payload C) :
    Payload C :=
  match index.subtree? (target.subtreeDigest key) with
  | some reference => .treeReference reference
  | none => (index.content? (target.contentDigest key)).elim payload .nodeReference

/-- The items below an item, unless its subtree is found in the donor. -/
def itemsKept (index : DonorIndex) (target : Store C) (item : Key × Option Key) :
    List (Key × Option Key) :=
  if (index.subtree? (target.subtreeDigest item.1)).isNone then target.tree.itemsBelow item else []

/-- The row that an item becomes. -/
def restatedRow (index : DonorIndex) (target : Store C) (item : Key × Option Key) :
    List (Layout.Row C) :=
  (target.layout item.1).elim [] fun standing =>
    [(item.1, ⟨item.2, restated index target item.1 standing.payload⟩)]

/-- The rows of the normal form of what is at and below a key. -/
def rowsWithin (index : DonorIndex) (target : Store C) (levels : Nat) (item : Key × Option Key) :
    List (Layout.Row C) :=
  (preorder (itemsKept index target) levels item).flatMap (restatedRow index target)

/-- The rows of the normal form of a store. -/
def restatedRows (index : DonorIndex) (target : Store C) : List (Layout.Row C) :=
  target.root.elim [] fun root => rowsWithin index target target.tree.levels (root, none)

/-- The restated payload, with what is below it kept unless its subtree is found. -/
def decided (index : DonorIndex) (target : Store C) : Decision C := fun key payload =>
  (restated index target key payload, (index.subtree? (target.subtreeDigest key)).isNone)

/-- The rows of a normal form are those that the store becomes. -/
theorem restatedRows_eq (index : DonorIndex) (target : Store C) :
    restatedRows index target = rowsBy (decided index target) target := by
  have items : itemsKept index target = itemsBy (decided index target) target := by
    funext item
    rw [itemsKept, itemsBy]
    cases absent : target.layout item.1 with
    | none =>
        have none : target.tree.itemsBelow item = [] := by
          rw [Tree.itemsBelow, Store.childList_of_absent (Store.layout_eq_none_iff.mp absent)]
          rfl
        rw [none, ite_self, Option.elim_none]
    | some standing => rfl
  rw [restatedRows, rowsBy]
  cases target.root with
  | none => rfl
  | some root =>
      rw [Option.elim_some, Option.elim_some, rowsWithin, items]
      rfl

theorem restated_of_some (found : index.subtree? (target.subtreeDigest key) = some reference) :
    restated index target key payload = .treeReference reference := by
  rw [restated, found]

theorem restated_of_none (missing : index.subtree? (target.subtreeDigest key) = none) :
    restated index target key payload =
      (index.content? (target.contentDigest key)).elim payload .nodeReference := by
  rw [restated, missing]

/-- Only a subtree that is found becomes a tree-reference. -/
theorem isTreeReference_restated (index : DonorIndex) (target : Store C) (key : Key)
    (content : payload.isReference = false) :
    (restated index target key payload).isTreeReference =
      (index.subtree? (target.subtreeDigest key)).isSome := by
  cases found : index.subtree? (target.subtreeDigest key) with
  | some reference =>
      rw [restated_of_some found]
      rfl
  | none =>
      rw [restated_of_none found]
      cases index.content? (target.contentDigest key) with
      | some reference => rfl
      | none =>
          cases payload with
          | content value => rfl
          | nodeReference reference => cases content
          | treeReference reference => cases content

theorem restatedRow_of_layout (found : target.layout key = some ⟨above, payload⟩) :
    restatedRow index target (key, above) = [(key, ⟨above, restated index target key payload⟩)] := by
  rw [restatedRow, found]
  rfl

/-- The references of a normal form point into the donor. -/
theorem resolves_restated (sound : index.Sound base) (content : payload.isReference = false) :
    base.Resolves (restated index target key payload) := by
  intro reference points
  cases found : index.subtree? (target.subtreeDigest key) with
  | some other =>
      rw [restated_of_some found] at points
      cases points
      obtain ⟨sameTree, holds, -⟩ := sound.subtree _ _ found
      exact ⟨sameTree, holds⟩
  | none =>
      rw [restated_of_none found] at points
      cases found' : index.content? (target.contentDigest key) with
      | some other =>
          rw [found'] at points
          cases points
          obtain ⟨sameTree, holds, -⟩ := sound.content _ _ found'
          exact ⟨sameTree, holds⟩
      | none =>
          rw [found', Option.elim_none] at points
          rw [Payload.isReference, points] at content
          cases content

/-- No key comes twice in a normal form. -/
theorem fresh_restatedRows (index : DonorIndex) (wellFormed : target.WellFormed) :
    Layout.Fresh (fun _ => none) (restatedRows index target) := by
  rw [restatedRows_eq]
  exact fresh_rowsBy wellFormed

/-- A row of a normal form restates the node under its key, below a parent that is not found. -/
theorem restates_of_mem {standing : Standing C} (wellFormed : target.WellFormed)
    (inside : (key, standing) ∈ restatedRows index target) :
    ∃ payload, target.layout key = some ⟨standing.parent, payload⟩ ∧
      standing.payload = restated index target key payload ∧
      ∀ parent, standing.parent = some parent →
        index.subtree? (target.subtreeDigest parent) = none := by
  rw [restatedRows_eq] at inside
  obtain ⟨payload, found, same, kept⟩ := restates_of_mem_rowsBy wellFormed inside
  refine ⟨payload, found, same, fun parent above => ?_⟩
  obtain ⟨held, -, missing⟩ := kept parent above
  exact Option.isNone_iff_eq_none.mp missing

section Matching

variable (sound : index.Sound base) (faithful : Content.Faithful C)
  (collisionFree : CollisionFree (base.preimages ++ target.preimages))
  (donor : base.Digestible) (plain : target.Digestible)

include sound faithful collisionFree donor plain

/-- A node of a normal form lends the content of the node that it restates. -/
theorem lend_restated (found : target.layout key = some ⟨above, payload⟩) :
    base.lend (restated index target key payload) = payload := by
  cases matched : index.subtree? (target.subtreeDigest key) with
  | some reference =>
      obtain ⟨-, ⟨standing, there⟩, digest⟩ := sound.subtree _ _ matched
      rw [restated_of_some matched, Store.lend_treeReference there]
      exact (Store.matches_of_subtreeDigest faithful collisionFree donor plain there found digest).1
  | none =>
      rw [restated_of_none matched]
      cases matched' : index.content? (target.contentDigest key) with
      | some reference =>
          obtain ⟨-, ⟨standing, there⟩, digest⟩ := sound.content _ _ matched'
          have points : (Payload.nodeReference reference : Payload C).reference? = some reference :=
            rfl
          rw [Option.elim_some, Store.lend_of_reference points there]
          exact Store.payload_eq_of_contentDigest faithful collisionFree donor plain there found digest
      | none => exact base.lend_of_not_isReference (plain.allContent.not_isReference found)

/-- What is at and below a key is what its normal form stands for. -/
theorem spelledOut_rowsWithin (found : target.layout key = some ⟨above, payload⟩)
    (enough : Exhausts target.tree.childList levels key) :
    (rowsWithin index target levels (key, above)).flatMap
        (fun row => (base.taken row).flatMap base.spelledOut) = target.rowsFrom key := by
  induction levels generalizing key above payload with
  | zero => exact enough.elim
  | succ levels inductionHypothesis =>
      have content := plain.allContent.not_isReference found
      have lent := lend_restated sound faithful collisionFree donor plain found
      rw [plain.wellFormed.rowsFrom_eq found, rowsWithin, preorder, List.flatMap_cons,
        restatedRow_of_layout found, List.singleton_append, List.flatMap_cons, List.flatMap_assoc,
        List.flatMap_assoc, itemsKept]
      cases matched : index.subtree? (target.subtreeDigest key) with
      | some reference =>
          obtain ⟨-, ⟨standing, there⟩, digest⟩ := sound.subtree _ _ matched
          have copies :=
            (Store.matches_of_subtreeDigest faithful collisionFree donor plain there found digest).2
          rw [restated_of_some matched] at lent ⊢
          rw [Expansion.flatMap_taken_treeReference donor.wellFormed donor.allContent ⟨_, there⟩,
            lent, copies]
          exact List.append_nil _
      | none =>
          have notReference := isTreeReference_restated index target key content
          rw [matched] at notReference
          rw [Expansion.flatMap_taken_of_not_isTreeReference notReference, lent,
            plain.wellFormed.rowsBelow_eq (Nat.le_refl _)]
          apply congrArg (List.cons _)
          rw [Option.isNone_none, if_pos rfl, Tree.itemsBelow, List.flatMap_map]
          apply List.flatMap_congr
          intro child inside
          obtain ⟨payload', found'⟩ := (plain.wellFormed.listed.mem_iff key child).mp inside
          rw [← List.flatMap_assoc]
          exact inductionHypothesis found' (enough child inside)

/-- A normal form stands for the rows of the tree that it restates. -/
theorem spelledOut_restatedRows :
    ((restatedRows index target).flatMap base.taken).flatMap base.spelledOut = target.rows := by
  rw [restatedRows, Store.rows]
  cases found : target.root with
  | none => rfl
  | some root =>
      have isRoot := (plain.wellFormed.root root).mp found
      have enough := plain.wellFormed.shows.exhausts isRoot.holds (Nat.le_succ _)
      obtain ⟨payload, there⟩ := isRoot
      rw [Option.elim_some, Option.elim_some, List.flatMap_assoc]
      exact spelledOut_rowsWithin sound faithful collisionFree donor plain there enough

/-- A store with the rows of a normal form stands for the rows of the tree that was restated. -/
theorem standsFor_restated {store : Store C} {id : TreeId}
    (builds : store.Builds id (Layout.plant (fun _ => none) (restatedRows index target))) :
    (base.standsFor store).Perm target.rows := by
  have perm := builds.wellFormed.rows_perm (fresh_restatedRows index plain.wellFormed)
    builds.layout_eq
  rw [Store.standsFor, ← spelledOut_restatedRows sound faithful collisionFree donor plain]
  exact (perm.flatMap_right _).flatMap_right _

end Matching

/-- A store with the rows of a normal form refers into the donor. -/
theorem refersInto_restated {store : Store C} {id : TreeId} (sound : index.Sound base)
    (wellFormed : target.WellFormed) (allContent : target.AllContent)
    (builds : store.Builds id (Layout.plant (fun _ => none) (restatedRows index target))) :
    store.RefersInto base where
  wellFormed := builds.wellFormed
  resolves key standing found := by
    rw [builds.layout_eq, Layout.plant_empty_eq_some_iff
      (fresh_restatedRows index wellFormed)] at found
    obtain ⟨payload, there, same, -⟩ := restates_of_mem wellFormed found
    rw [same]
    exact resolves_restated sound (allContent.not_isReference there)
  leaf key child parent reference found := by
    rintro ⟨lower, below⟩
    rw [builds.layout_eq, Layout.plant_empty_eq_some_iff
      (fresh_restatedRows index wellFormed)] at found below
    obtain ⟨payload, there, same, -⟩ := restates_of_mem wellFormed found
    obtain ⟨-, -, -, missing⟩ := restates_of_mem wellFormed below
    have isReference :=
      isTreeReference_restated index target key (allContent.not_isReference there)
    rw [← same, missing key rfl] at isReference
    cases isReference

end Normalized

end VersionedTrees
