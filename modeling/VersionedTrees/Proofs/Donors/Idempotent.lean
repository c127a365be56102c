import VersionedTrees.Proofs.Donors.Preservation
import VersionedTrees.Proofs.Donors.Settled

/-!
# Normalizing twice

To normalize what was normalized changes nothing (`Normalized.normalize_idempotent`), whether or not
digests collide: what a node becomes depends on its digests, and references leave these as they are. A
node that refers to a subtree that was found has the digest by which it was found, one that stays a
tree-reference has that of its target, and any other node keeps its content and its children
(`Normalized.sustains_byTable`). So the same is found for each node again, and what was refused,
since other content has the same digest, is refused again.

The digests of the normalized tree can be computed because all its references lead to donors that have
theirs.
-/

namespace VersionedTrees

variable {C : Type} [Content C]

namespace Normalized

/-! ## One node -/

section Deciding

variable {index : DonorIndex} {stores : List (Store C)} {payload : Payload C} {value : C}
  {digest digest' : NodeDigest}

/-- A node becomes a reference to the subtree that was found, stays a tree-reference, or becomes what its
content becomes. -/
theorem byDigest_cases (lent : Donors.lent stores payload = some value) :
    (∃ reference, index.subtree? digest.subtree = some reference ∧
      byDigest index stores payload digest = (.treeReference reference, false)) ∨
    (∃ reference, payload = .treeReference reference ∧
      byDigest index stores payload digest = (.treeReference reference, false)) ∨
    payload.isTreeReference = false ∧
      byDigest index stores payload digest = (byContent index stores digest.content value, true) := by
  cases found : index.subtree? digest.subtree with
  | some reference => exact .inl ⟨reference, rfl, byDigest_of_found found⟩
  | none =>
      rw [byDigest_of_missing found lent]
      cases payload with
      | treeReference reference => exact .inr (.inl ⟨reference, rfl, rfl⟩)
      | content _ | nodeReference _ => exact .inr (.inr ⟨rfl, rfl⟩)

/-- What is below a node is kept unless the node becomes a tree-reference. -/
theorem snd_byDigest (lent : Donors.lent stores payload = some value) :
    (byDigest index stores payload digest).2 =
      !(byDigest index stores payload digest).1.isTreeReference := by
  rcases byDigest_cases lent with ⟨reference, -, decided⟩ | ⟨reference, -, decided⟩ | ⟨-, decided⟩
  · rw [decided]
    rfl
  · rw [decided]
    rfl
  · rw [decided, (lent_byContent index stores digest.content value).2]
    rfl

/-- By the same digests a node becomes again what it became. The digest of its content matters only if
what is below it was kept. -/
theorem byDigest_byDigest (lent : Donors.lent stores payload = some value)
    (subtree : digest'.subtree = digest.subtree)
    (content : (byDigest index stores payload digest).2 = true → digest'.content = digest.content) :
    byDigest index stores (byDigest index stores payload digest).1 digest' =
      byDigest index stores payload digest := by
  cases found : index.subtree? digest.subtree with
  | some reference => rw [byDigest_of_found found, byDigest_of_found (subtree ▸ found)]
  | none =>
      have missing : index.subtree? digest'.subtree = none := subtree ▸ found
      rw [byDigest_of_missing found lent] at content ⊢
      cases isTreeReference : payload.isTreeReference with
      | true => simp [byDigest_of_missing missing lent, isTreeReference]
      | false =>
          rw [isTreeReference] at content
          obtain ⟨lent', notReference⟩ := lent_byContent index stores digest.content value
          simp [byDigest_of_missing missing lent', notReference, content rfl]

end Deciding

/-! ## The digests of a normalized tree -/

/-- What the nodes of a tree become by the digests that a table tells of them. -/
def byTable (index : DonorIndex) (stores : List (Store C)) (table : DigestTable) : Decision C :=
  fun key payload => table.nodes[key]?.elim (payload, true) (byDigest index stores payload)

section Restated

variable {index : DonorIndex} {stores : List (Store C)} {target store : Store C} {table : DigestTable}
  {id : TreeId} {key : Key} {standing : Standing C} {subtree : Subtree C}

/-- A node becomes what it becomes by the digests of what it stands for. -/
theorem byTable_of_describes (index : DonorIndex) (tabulates : Tabulates stores target table)
    (describes : Describes stores ⟨target, key⟩ subtree) (payload : Payload C) :
    byTable index stores table key payload =
      byDigest index stores payload (Site.nodeDigest ⟨target, key⟩ subtree) := by
  obtain ⟨other, describes', there⟩ := tabulates.exists_describes describes.holds
  obtain rfl := describes.unique describes'
  rw [byTable, there, Option.elim_some]

/-- The digests of a forest are those of its subtrees. -/
theorem digests_eq_told (forest : Forest C) : forest.digests = forest.told Subtree.digest := by
  induction forest with
  | nil => rfl
  | cons key value below rest _ inductionHypothesis =>
      rw [Forest.digests, Forest.told, inductionHypothesis]
      rfl

/-- A node becomes a reference to a subtree with the same digest, stays a tree-reference, or lends its content
and keeps what is below it. -/
theorem sustains_byTable (indexes : index.Indexes stores)
    (wellFormed : ∀ store ∈ stores, store.WellFormed) (tabulates : Tabulates stores target table) :
    Sustains stores target (byTable index stores table) Subtree.digest where
  congr value forest forest' same := by
    rw [Subtree.digest, Subtree.digest, Subtree.preimage, Subtree.preimage, digests_eq_told,
      digests_eq_told, same]
  step key held subtree found describes := by
    have before : Site.payload? ⟨target, key⟩ = some held.payload := Store.payload?_of_layout found
    rw [byTable_of_describes index tabulates describes]
    rcases byDigest_cases (describes.lent before) with
      ⟨reference, matched, decided⟩ | ⟨reference, payload, decided⟩ | ⟨was, decided⟩
    · rw [decided]
      exact .reference fun site there => indexes.exists_describes_of_subtree? wellFormed matched there
    · rw [payload] at before
      rw [decided]
      exact .reference fun site there => ⟨subtree, (describes_of_treeReference there).mpr
        ((describes_of_treeReference before).mp describes), rfl⟩
    · obtain ⟨lent, becomes⟩ :=
        lent_byContent index stores (Content.digest subtree.content) subtree.content
      rw [decided]
      exact .content was becomes lent

variable (indexes : index.Indexes stores) (wellFormed : ∀ store ∈ stores, store.WellFormed)
  (wellFormedTarget : target.WellFormed) (tabulates : Tabulates stores target table)
  (builds : store.Builds id (Layout.plant (fun _ => none) (rowsBy (byTable index stores table) target)))

include indexes wellFormed wellFormedTarget tabulates builds

/-! ## Normalizing again -/

/-- By its digests a node of a normalized tree becomes what it is. -/
theorem exists_byDigest_of_layout (there : store.layout key = some standing) :
    ∃ restated, Describes stores ⟨store, key⟩ restated ∧
      Donors.lent stores standing.payload = some restated.content ∧
      byDigest index stores standing.payload (Site.nodeDigest ⟨store, key⟩ restated) =
        (standing.payload, !standing.payload.isTreeReference) := by
  have inside := (layout_iff_of_builds wellFormedTarget builds).mp there
  obtain ⟨payload, found, same, -⟩ := restates_of_mem_rowsBy wellFormedTarget inside
  obtain ⟨subtree, describes, -⟩ := tabulates.exists_describes ⟨_, found⟩
  obtain ⟨above, restated⟩ := standing
  obtain rfl : restated = (byTable index stores table key payload).1 := same
  have lent := describes.lent (Store.payload?_of_layout found)
  obtain ⟨restated, describes', digest, content⟩ := (sustains_byTable indexes wellFormed
    tabulates).exists_describes wellFormedTarget builds found inside describes
  refine ⟨restated, describes', describes'.lent (Store.payload?_of_layout there), ?_⟩
  rw [byTable_of_describes index tabulates describes] at content ⊢
  rw [← snd_byDigest lent]
  exact byDigest_byDigest lent digest fun kept => congrArg Content.digest (content kept)

omit indexes wellFormed in
/-- The tree-references of a normalized tree have no children. -/
theorem isTreeReference_of_isChild {child parent : Key} (isChild : store.layout.IsChild child parent)
    (there : store.layout parent = some standing) : standing.payload.isTreeReference = false := by
  obtain ⟨payload, lower⟩ := isChild
  obtain ⟨-, -, -, above⟩ := restates_of_mem_rowsBy wellFormedTarget
    ((layout_iff_of_builds wellFormedTarget builds).mp lower)
  obtain ⟨held, found, descends⟩ := above parent rfl
  obtain ⟨payload', found', same, -⟩ := restates_of_mem_rowsBy wellFormedTarget
    ((layout_iff_of_builds wellFormedTarget builds).mp there)
  obtain rfl := Option.some.inj (found.symm.trans found')
  obtain ⟨subtree, describes, -⟩ := tabulates.exists_describes ⟨_, found⟩
  have lent := describes.lent (Store.payload?_of_layout found)
  rw [byTable_of_describes index tabulates describes, snd_byDigest lent] at descends
  rw [same, byTable_of_describes index tabulates describes]
  simpa using descends

/-- The digests of a normalized tree can be computed. -/
theorem exists_digestsOf
    (computed : Computed stores (DonorIndex.identifiers (Donors.ofStores stores)) index.digests) :
    ∃ digests, (index.digestsOf store.tree (Donors.ofStores stores)).result = .ok digests := by
  have lends : ∀ key standing, store.layout key = some standing →
      ∃ value, Donors.lent stores standing.payload = some value := by
    intro key standing there
    obtain ⟨restated, -, lent, -⟩ :=
      exists_byDigest_of_layout indexes wellFormed wellFormedTarget tabulates builds there
    exact ⟨_, lent⟩
  refine completes_ofTree Read.completing builds.wellFormed lends ?_ indexes.targets
  intro key above reference there
  obtain ⟨value, lent⟩ := lends key _ there
  obtain ⟨donor, counts, -⟩ := (Donors.lent_eq_some_iff rfl).mp lent
  obtain ⟨table, digest, listed, told⟩ := DonorIndex.exists_targetDigest computed
    (Donors.mem_identifiers_iff.mpr ⟨donor, counts⟩) lent
  exact ⟨digest, (Read.result_bind_of_ok (Read.result_orFail_eq_ok_iff.mpr listed)).trans told⟩

end Restated

/-- Nothing changes, and what is below a node is kept unless the node is a tree-reference. -/
def unchanged : Decision C :=
  fun _ payload => (payload, !payload.isTreeReference)

/-- Two normal forms have the same identifier, the same nodes in the same places, and references under the
same keys. -/
structure Agrees (left right : Normalized C) : Prop where
  id : left.tree.id = right.tree.id
  sameReads : left.tree.tree.SameReads right.tree.tree
  references : ∀ key, key ∈ left.references ↔ key ∈ right.references

section Again

variable {index : DonorIndex} {stores targets : List (Store C)} {target : Store C}
  {normalized : Normalized C} {normalForms : List (Normalized C)}

omit [Content C] in
/-- Normal forms with the same layout agree. -/
theorem Restates.agrees {again : Normalized C} {id : TreeId} {layout : Layout C}
    (restates : Restates id again layout) (restates' : Restates id normalized layout) :
    Agrees again normalized where
  id := restates.builds.id_eq.trans restates'.builds.id_eq.symm
  sameReads := by
    have shows := restates.builds.wellFormed.shows
    rw [restates.builds.layout_eq, ← restates'.builds.layout_eq] at shows
    exact shows.sameReads restates'.builds.wellFormed.shows
  references key := by rw [restates.references, restates'.references]

variable (indexes : index.Indexes stores) (wellFormed : ∀ store ∈ stores, store.WellFormed)
  (computed : Computed stores (DonorIndex.identifiers (Donors.ofStores stores)) index.digests)

include indexes wellFormed computed

/-- A normalized tree is normalized to itself. -/
theorem exists_agrees_of_ofTree (wellFormedTarget : target.WellFormed)
    (ok : (ofTree index (Donors.ofStores stores) target.tree).result = .ok normalized) :
    ∃ again, (ofTree index (Donors.ofStores stores) normalized.tree.tree).result = .ok again ∧
      Agrees again normalized := by
  obtain ⟨table, told, -⟩ := Read.result_bind_eq_ok ok
  have tabulates := assures_ofTree Read.assures wellFormedTarget indexes.targets table told
  obtain ⟨other, ok', restates⟩ := restates_of_byDigest indexes wellFormed wellFormedTarget
    (fun key standing subtree _ describes =>
      (byTable_of_describes index tabulates describes standing.payload).symm) told
  obtain rfl : normalized = other := Except.ok.inj (ok.symm.trans ok')
  have builds := restates.builds
  obtain ⟨digests, told'⟩ :=
    exists_digestsOf indexes wellFormed wellFormedTarget tabulates builds computed
  have decides : ∀ key standing subtree, normalized.tree.layout key = some standing →
      Describes stores ⟨normalized.tree, key⟩ subtree →
      byDigest index stores standing.payload (Site.nodeDigest ⟨normalized.tree, key⟩ subtree) =
        unchanged key standing.payload := by
    intro key standing subtree there describes
    obtain ⟨restated, describes', -, decided⟩ :=
      exists_byDigest_of_layout indexes wellFormed wellFormedTarget tabulates builds there
    obtain rfl := describes.unique describes'
    exact decided
  obtain ⟨again, done, restates'⟩ :=
    restates_of_byDigest indexes wellFormed builds.wellFormed decides told'
  have same : Layout.plant (fun _ => none) (rowsBy unchanged normalized.tree) = normalized.tree.layout :=
    plant_rowsBy_of_unchanged builds.wellFormed (fun _ _ _ => rfl) fun parent key standing there isChild =>
      congrArg not (isTreeReference_of_isChild wellFormedTarget tabulates builds isChild there)
  rw [same, builds.layout_eq, builds.id_eq] at restates'
  exact ⟨again, done, restates'.agrees restates⟩

/-- So are all normalized trees of a list. -/
theorem exists_agrees_of_forall₂ (wellFormedTargets : ∀ target ∈ targets, target.WellFormed)
    (restates : List.Forall₂ (fun (target : Store C) normalized =>
      (ofTree index (Donors.ofStores stores) target.tree).result = .ok normalized) targets normalForms) :
    ∃ again, List.Forall₂ (fun (normalized : Normalized C) once =>
        (ofTree index (Donors.ofStores stores) normalized.tree.tree).result = .ok once)
          normalForms again ∧ List.Forall₂ Agrees again normalForms := by
  induction restates with
  | nil => exact ⟨[], .nil, .nil⟩
  | cons first _ inductionHypothesis =>
      obtain ⟨here, later⟩ := List.forall_mem_cons.mp wellFormedTargets
      obtain ⟨once, done, agrees⟩ := exists_agrees_of_ofTree indexes wellFormed computed here first
      obtain ⟨again, rest, agree⟩ := inductionHypothesis later
      exact ⟨once :: again, .cons done rest, .cons agrees agree⟩

end Again

/-- Trees that were normalized can be normalized again against the same donors, which changes nothing. -/
theorem normalize_idempotent {stores targets : List (Store C)} {normalForms : List (Normalized C)}
    (reachable : ∀ store ∈ targets ++ stores, store.Reachable)
    (ok : ((Donors.ofStores stores).normalize (targets.map Store.tree)).result = .ok normalForms) :
    ∃ again, ((Donors.ofStores stores).normalize (normalForms.map (·.tree.tree))).result = .ok again ∧
      List.Forall₂ Agrees again normalForms := by
  have wellFormed : ∀ store ∈ targets ++ stores, store.WellFormed :=
    fun store inside => (reachable store inside).wellFormed
  obtain ⟨wellFormedTargets, wellFormed⟩ := List.forall_mem_append.mp wellFormed
  obtain ⟨index, built, restates⟩ := result_normalize_iff.mp ok
  have indexes := DonorIndex.indexes_of_buildInOrder wellFormed (fun _ listed => listed) built
  obtain ⟨computed, -⟩ := DonorIndex.computed_of_buildInOrder wellFormed (fun _ listed => listed) built
  obtain ⟨again, restates', agree⟩ := exists_agrees_of_forall₂ indexes wellFormed computed
    wellFormedTargets (List.forall₂_map_left_iff.mp restates)
  exact ⟨again, result_normalize_iff.mpr ⟨index, built, List.forall₂_map_left_iff.mpr restates'⟩, agree⟩

/-- A tree with content of its own, with two references to subtrees that were found, with a tree-reference
that stayed and with a node-reference is normalized to itself. -/
theorem normalize_idempotent_borrower :
    (∀ store ∈ [borrower] ++ lenders, store.Reachable) ∧
      ∃ normalized again,
        ((Donors.ofStores lenders).normalize ([borrower].map Store.tree)).result = .ok [normalized] ∧
        normalized.tree.keys = [.number 4, .number 5, .number 6, .number 7, .number 9] ∧
        normalized.references.toList = [.number 5, .number 6, .number 7, .number 9] ∧
        ((Donors.ofStores lenders).normalize [normalized.tree.tree]).result = .ok [again] ∧
        Agrees again normalized := by
  have reachable : ∀ store ∈ [borrower] ++ lenders, store.Reachable := by
    intro store inside
    simp only [lenders, List.mem_append, List.mem_cons, List.not_mem_nil, or_false] at inside
    rcases inside with rfl | rfl | rfl | rfl <;> exact Store.reachable_ofEdits _ _
  have succeeds : (do
      let restated ← (Donors.ofStores lenders).normalize [borrower.tree]
      return restated.map fun normalized => (normalized.tree.keys, normalized.references.toList) :
        Read (List (List Key × List Key))).result =
        .ok [([.number 4, .number 5, .number 6, .number 7, .number 9],
          [.number 5, .number 6, .number 7, .number 9])] := by decide +kernel
  obtain ⟨restated, ok, told⟩ := Read.result_bind_eq_ok succeeds
  obtain ⟨normalized, rfl, noted⟩ := List.map_eq_singleton_iff.mp (Except.ok.inj told)
  obtain ⟨keys, references⟩ := Prod.mk.inj noted
  obtain ⟨again, done, agree⟩ := normalize_idempotent reachable ok
  obtain ⟨once, _, agrees, rest, rfl⟩ := List.forall₂_cons_right_iff.mp agree
  obtain rfl := List.forall₂_nil_right_iff.mp rest
  exact ⟨reachable, normalized, once, ok, keys, references, done, agrees⟩

end Normalized

end VersionedTrees
