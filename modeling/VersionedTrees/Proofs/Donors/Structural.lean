import VersionedTrees.Proofs.Donors.Matches
import VersionedTrees.Proofs.Donors.Restating
import VersionedTrees.Proofs.Store.Reachable

/-!
# Normalizing by comparing subtrees

What a node becomes when a tree is normalized is found through digests (`Normalized.byDigest`). It can
also be found by comparing what nodes stand for: a node becomes a tree-reference to the first donor node
that stores the same subtree, else it stays a tree-reference, else it becomes a node-reference to the
first donor node that stores the same content, else it holds its content (`Normalized.structural`). Both
find the same (`Normalized.byDigest_eq_structural`), so that normalizing builds the rows that comparing
gives.
-/

namespace VersionedTrees

variable {C : Type} [Content C]

namespace Normalized

/-- What content becomes by its digest: a reference to the donor node that was found, if that holds this
content, and otherwise the content itself. -/
def byContent (index : DonorIndex) (stores : List (Store C)) (digest : Digest) (value : C) : Payload C :=
  ((index.content? digest).filter fun reference =>
    Donors.lent stores (.nodeReference reference) = some value).elim (.content value) .nodeReference

/-- What a node becomes by its digests, and whether the nodes below it are kept. -/
def byDigest (index : DonorIndex) (stores : List (Store C)) (payload : Payload C) (digest : NodeDigest) :
    Payload C × Bool :=
  match index.subtree? digest.subtree with
  | some reference => (.treeReference reference, false)
  | none =>
    if payload.isTreeReference then
      (payload, false)
    else
      ((Donors.lent stores payload).elim payload (byContent index stores digest.content), true)

section Digests

variable {stores : List (Store C)} {index : DonorIndex} {payload : Payload C} {value : C}
  {digest : NodeDigest} {reference : Reference}

/-- What content becomes stands for it, and is no tree-reference. -/
theorem lent_byContent (index : DonorIndex) (stores : List (Store C)) (digest : Digest) (value : C) :
    Donors.lent stores (byContent index stores digest value) = some value ∧
      (byContent index stores digest value).isTreeReference = false := by
  rw [byContent]
  cases matched : (index.content? digest).filter fun reference =>
      Donors.lent stores (.nodeReference reference) = some value with
  | none => exact ⟨rfl, rfl⟩
  | some reference =>
      obtain ⟨-, same⟩ := Option.filter_eq_some_iff.mp matched
      exact ⟨of_decide_eq_true same, rfl⟩

theorem byDigest_of_found (found : index.subtree? digest.subtree = some reference) :
    byDigest index stores payload digest = (.treeReference reference, false) := by
  rw [byDigest, found]

theorem byDigest_of_missing (missing : index.subtree? digest.subtree = none)
    (lent : Donors.lent stores payload = some value) : byDigest index stores payload digest =
      if payload.isTreeReference then (payload, false)
      else (byContent index stores digest.content value, true) := by
  rw [byDigest, missing, lent, Option.elim_some]

variable (indexes : index.Indexes stores) (wellFormed : ∀ store ∈ stores, store.WellFormed)
  (lent : Donors.lent stores payload = some value)
include indexes wellFormed lent

/-- A node without matching subtree becomes what its content becomes. -/
theorem result_contentPayload_byContent (key : Key) (digest : NodeDigest) :
    (contentPayload index (Donors.ofStores stores) key payload digest).result =
      .ok (byContent index stores digest.content value) := by
  have resolved := Donors.result_resolve_iff.mpr lent
  rw [contentPayload, byContent]
  cases found : index.content? digest.content with
  | none => exact Read.result_bind_of_ok resolved
  | some reference =>
      obtain ⟨other, there, -⟩ := indexes.exists_lent_of_content? wellFormed found
      refine (Read.result_bind_of_ok (Donors.result_sameContent lent there)).trans ?_
      rw [Option.filter_some, there]
      by_cases same : value = other
      · subst same
        simp only [decide_true, if_true]
        rfl
      · simp only [same, Ne.symm same, Option.some.injEq, decide_false, Bool.false_eq_true, if_false]
        exact Read.result_bind_of_ok resolved

/-- A node that stands for content becomes what it becomes by its digests. -/
theorem result_restate_byDigest (key : Key) (digest : NodeDigest) :
    (restate index (Donors.ofStores stores) key payload digest).result =
      .ok (byDigest index stores payload digest) := by
  have contents := result_contentPayload_byContent indexes wellFormed lent key digest
  unfold restate
  cases found : index.subtree? digest.subtree with
  | some reference =>
      rw [byDigest_of_found found]
      rfl
  | none =>
      rw [byDigest_of_missing found lent]
      cases payload with
      | treeReference reference => rfl
      | content _ | nodeReference _ => exact Read.result_bind_of_ok contents

omit lent in
/-- A tree whose digests are computed is restated by what its nodes become by them. -/
theorem restates_of_byDigest {target : Store C} {table : DigestTable} {decision : Decision C}
    (wellFormedTarget : target.WellFormed)
    (decides : ∀ key standing subtree, target.layout key = some standing →
      Describes stores ⟨target, key⟩ subtree →
      byDigest index stores standing.payload (Site.nodeDigest ⟨target, key⟩ subtree) =
        decision key standing.payload)
    (told : (index.digestsOf target.tree (Donors.ofStores stores)).result = .ok table) :
    ∃ normalized, (ofTree index (Donors.ofStores stores) target.tree).result = .ok normalized ∧
      Restates target.id normalized
        (Layout.plant (fun _ => none) (rowsBy decision target)) := by
  have tabulates := assures_ofTree Read.assures wellFormedTarget indexes.targets table told
  refine restates_ofTree wellFormedTarget (fun key standing found => ?_) told
  obtain ⟨subtree, describes, there⟩ := tabulates.exists_describes ⟨_, found⟩
  have lent := describes.lent (Store.payload?_of_layout found)
  refine ⟨_, there, ?_⟩
  rw [result_restate_byDigest indexes wellFormed lent, decides key standing subtree found describes]

end Digests

/-- The first donor node that stores, without references, the subtree that a node stands for. -/
def firstSubtree? (stores : List (Store C)) (site : Site C) : Option Reference :=
  ((Donors.sites stores).find? fun donor =>
    donor.plain?.any (Describes stores site ·)).map Site.reference

/-- The first donor node that holds the content that a node stands for. -/
def firstContent? (stores : List (Store C)) (site : Site C) : Option Reference :=
  ((Donors.sites stores).find? fun donor =>
    donor.own?.any (site.content? stores = some ·)).map Site.reference

/-- What a node becomes by comparing it with the nodes of donors, and whether the nodes below it are
kept. -/
def structural (stores : List (Store C)) (target : Store C) : Decision C := fun key payload =>
  match firstSubtree? stores ⟨target, key⟩, payload with
  | some reference, _ => (.treeReference reference, false)
  | none, .treeReference reference => (.treeReference reference, false)
  | none, .content _ | none, .nodeReference _ =>
    match firstContent? stores ⟨target, key⟩ with
    | some reference => (.nodeReference reference, true)
    | none => ((Site.content? stores ⟨target, key⟩).elim payload .content, true)

section Comparing

variable {stores : List (Store C)} {target : Store C} {site donor : Site C} {key : Key}
  {payload : Payload C} {value : C} {reference : Reference} {subtree : Subtree C}
  {index : DonorIndex}

variable (comparable : Comparable stores target) (indexes : index.Indexes stores)
include comparable indexes

/-- The index finds the first donor node that stores the subtree. -/
theorem subtree?_eq_firstSubtree? (involved : Involved stores target site.store)
    (describes : Describes stores site subtree) :
    index.subtree? subtree.digest = firstSubtree? stores site := by
  rw [indexes.subtree?, firstSubtree?]
  apply congrArg
  apply DonorIndex.find?_eq_find?
  intro donor inside
  have counts := (Donors.mem_sites_iff fun store inside =>
    comparable.wellFormed store (List.mem_cons_of_mem _ inside)).mp inside
  cases plain : donor.plain? with
  | none => rfl
  | some other =>
      have describes' : Describes stores donor other := Store.describes_of_plain stores plain
      rw [Option.any_some, Option.any_some, decide_eq_decide]
      constructor
      · intro same
        rwa [comparable.subtree_eq_of_digest (.inr counts.1) involved describes' describes same]
      · intro same
        rw [same.unique describes]

/-- The index finds the first donor node that holds the content. -/
theorem content?_eq_firstContent? (involved : Involved stores target site.store)
    (describes : Describes stores site subtree) :
    index.content? (Content.digest subtree.content) = firstContent? stores site := by
  rw [indexes.content?, firstContent?]
  apply congrArg
  apply DonorIndex.find?_eq_find?
  intro donor inside
  have counts := (Donors.mem_sites_iff fun store inside =>
    comparable.wellFormed store (List.mem_cons_of_mem _ inside)).mp inside
  obtain ⟨other, describes'⟩ := indexes.described donor inside
  cases own : donor.own? with
  | none => rfl
  | some value =>
      obtain ⟨-, rfl⟩ := (Site.own?_eq_some_iff describes').mp own
      rw [Option.any_some, Option.any_some, decide_eq_decide, describes.1, Option.some.injEq]
      constructor
      · intro same
        exact (comparable.content_eq_of_digest (.inr counts.1) involved describes' describes
          same).symm
      · intro same
        rw [same]

omit comparable indexes in
/-- A reference that was found to content resolves to it. -/
theorem lent_of_firstContent? (wellFormed : ∀ store ∈ stores, store.WellFormed)
    (found : firstContent? stores site = some reference) :
    Donors.lent stores (.nodeReference reference) = site.content? stores := by
  obtain ⟨donor, first, rfl⟩ := Option.map_eq_some_iff.mp found
  have accepted := List.find?_some first
  obtain ⟨value, own, same⟩ := (Option.any_eq_true _ _).mp accepted
  rw [of_decide_eq_true same]
  exact Donors.lent_of_own? wellFormed (List.mem_of_find?_eq_some first) own

/-- By digests a node becomes what it becomes by comparing. -/
theorem byDigest_eq_structural (describes : Describes stores ⟨target, key⟩ subtree)
    (there : target.payload? key = some payload) :
    byDigest index stores payload (Site.nodeDigest ⟨target, key⟩ subtree) =
      structural stores target key payload := by
  have involved : Involved stores target (Site.mk target key).store := .inl rfl
  have matched := subtree?_eq_firstSubtree? comparable indexes involved describes
  have content := content?_eq_firstContent? comparable indexes involved describes
  have lent : Donors.lent stores payload = some subtree.content := describes.lent there
  -- what is found by comparing holds the content, so that nothing is refused
  have contents : byContent index stores (Content.digest subtree.content) subtree.content =
      (firstContent? stores ⟨target, key⟩).elim (.content subtree.content) .nodeReference := by
    rw [byContent, content]
    cases found : firstContent? stores ⟨target, key⟩ with
    | none => rfl
    | some reference =>
        have same := lent_of_firstContent? (fun store inside =>
          comparable.wellFormed store (List.mem_cons_of_mem _ inside)) found
        rw [Option.filter_some, same, describes.1, decide_eq_true rfl, if_pos rfl]
  unfold structural
  rw [describes.1]
  cases found : firstSubtree? stores ⟨target, key⟩ with
  | some reference => exact byDigest_of_found (matched.trans found)
  | none =>
      rw [byDigest_of_missing (matched.trans found) lent, Site.nodeDigest, contents]
      cases payload with
      | treeReference reference => rfl
      | content _ | nodeReference _ => cases firstContent? stores ⟨target, key⟩ <;> rfl

end Comparing

section Normalizing

variable {stores : List (Store C)} {target : Store C} {normalized : Normalized C}

/-- To normalize trees is to build the index of the donors and to restate each tree by it. -/
theorem result_normalize_iff {donors : Donors C} {trees : List (Tree C)}
    {restated : List (Normalized C)} : (donors.normalize trees).result = .ok restated ↔ ∃ index,
      (DonorIndex.build donors).result = .ok index ∧
        List.Forall₂ (fun tree normalized => (ofTree index donors tree).result = .ok normalized)
          trees restated := by
  rw [Donors.normalize]
  constructor
  · intro ok
    obtain ⟨index, built, ok⟩ := Read.result_bind_eq_ok ok
    exact ⟨index, built, Read.result_mapM_iff.mp ok⟩
  · rintro ⟨index, built, restates⟩
    rw [Read.result_bind_of_ok built]
    exact Read.result_mapM_iff.mpr restates

/-- To normalize one tree is to build the index of the donors and to restate the tree by it. -/
theorem result_normalize_single_iff {donors : Donors C} {tree : Tree C} :
    (donors.normalize [tree]).result = .ok [normalized] ↔ ∃ index,
      (DonorIndex.build donors).result = .ok index ∧
        (ofTree index donors tree).result = .ok normalized := by
  simp only [result_normalize_iff, List.forall₂_cons, List.forall₂_nil_right_iff, and_true]

/-- A tree that is normalized has its digests computed, and so have the donors. -/
theorem exists_tabulates_of_normalize (wellFormed : ∀ store ∈ target :: stores, store.WellFormed)
    (ok : ((Donors.ofStores stores).normalize [target.tree]).result = .ok [normalized]) :
    ∃ index digests, DonorIndex.Indexes index stores ∧ Tabulates stores target digests ∧
      (index.digestsOf target.tree (Donors.ofStores stores)).result = .ok digests ∧
      (ofTree index (Donors.ofStores stores) target.tree).result = .ok normalized := by
  obtain ⟨wellFormedTarget, wellFormed⟩ := List.forall_mem_cons.mp wellFormed
  obtain ⟨index, built, normalizes⟩ := result_normalize_single_iff.mp ok
  have indexes : index.Indexes stores :=
    DonorIndex.indexes_of_buildInOrder wellFormed (fun _ listed => listed) built
  obtain ⟨digests, told, -⟩ := Read.result_bind_eq_ok normalizes
  exact ⟨index, digests, indexes,
    assures_ofTree Read.assures wellFormedTarget indexes.targets digests told, told, normalizes⟩

/-- All nodes of a tree that is normalized stand for a subtree. -/
theorem exists_describes_of_normalize (wellFormed : ∀ store ∈ target :: stores, store.WellFormed)
    (ok : ((Donors.ofStores stores).normalize [target.tree]).result = .ok [normalized]) {key : Key}
    (holds : target.layout.Holds key) : ∃ subtree, Describes stores ⟨target, key⟩ subtree := by
  obtain ⟨index, digests, -, tabulates, -⟩ := exists_tabulates_of_normalize wellFormed ok
  obtain ⟨subtree, describes, -⟩ := tabulates.exists_describes holds
  exact ⟨subtree, describes⟩

/-- A tree that is normalized is restated as comparing gives. -/
theorem restates_of_normalize (comparable : Comparable stores target)
    (ok : ((Donors.ofStores stores).normalize [target.tree]).result = .ok [normalized]) :
    Restates target.id normalized
      (Layout.plant (fun _ => none) (rowsBy (structural stores target) target)) := by
  obtain ⟨index, digests, indexes, -, told, normalizes⟩ :=
    exists_tabulates_of_normalize comparable.wellFormed ok
  obtain ⟨wellFormedTarget, wellFormed⟩ := List.forall_mem_cons.mp comparable.wellFormed
  obtain ⟨other, normalizes', restated⟩ := restates_of_byDigest indexes wellFormed wellFormedTarget
    (fun key standing subtree found describes => byDigest_eq_structural comparable indexes describes
      (Store.payload?_of_layout found)) told
  cases normalizes.symm.trans normalizes'
  exact restated

end Normalizing

/-- To normalize a tree is to compare its subtrees and contents with those of the donor nodes, and the
keys that are told are those that hold references. -/
theorem rows_of_normalize {stores : List (Store C)} {target : Store C} {normalized : Normalized C}
    (reachable : ∀ store ∈ target :: stores, store.Reachable)
    (keysFit : ∀ store ∈ target :: stores, store.KeysFit) (faithful : Content.Faithful C)
    (apart : ∀ left right, Hashed stores target left → Hashed stores target right →
      Digest.of left = Digest.of right → left = right)
    (ok : ((Donors.ofStores stores).normalize [target.tree]).result = .ok [normalized]) :
    normalized.tree.WellFormed ∧ normalized.tree.id = target.id ∧
      normalized.tree.rows = rowsBy (structural stores target) target ∧
      ∀ key, key ∈ normalized.references ↔ ∃ payload,
        normalized.tree.payload? key = some payload ∧ payload.isReference = true := by
  have comparable : Comparable stores target :=
    ⟨faithful, fun store inside => (reachable store inside).wellFormed, keysFit, apart⟩
  obtain ⟨builds, references⟩ := restates_of_normalize comparable ok
  refine ⟨builds.wellFormed, builds.id_eq,
    rows_of_builds (comparable.wellFormed target List.mem_cons_self) builds, fun key => ?_⟩
  rw [references key, ← builds.layout_eq]
  simp only [Store.payload?_eq, Option.map_eq_some_iff]
  constructor
  · rintro ⟨standing, found, isReference⟩
    exact ⟨_, ⟨standing, found, rfl⟩, isReference⟩
  · rintro ⟨_, ⟨standing, found, rfl⟩, isReference⟩
    exact ⟨standing, found, isReference⟩

/-- A donor, one with the same identifier that does not count, and one that refers to the first. -/
def lenders : List (Store String) :=
  [.ofEdits ⟨1⟩ [.insert none (.exactly (.number 1)) (.content "a"),
      .insert (some (.number 1)) (.exactly (.number 2)) (.content "b")],
    .ofEdits ⟨1⟩ [.insert none (.exactly (.number 4)) (.content "z")],
    .ofEdits ⟨2⟩ [.insert none (.exactly (.number 3)) (.content "c"),
      .insert (some (.number 3)) (.exactly (.number 8)) (.nodeReference ⟨⟨1⟩, .number 2⟩)]]

/-- A tree that shares content and subtrees with donors and refers to one of them. -/
def borrower : Store String :=
  .ofEdits ⟨3⟩ [.insert none (.exactly (.number 4)) (.content "z"),
    .insert (some (.number 4)) (.exactly (.number 5)) (.content "a"),
    .insert (some (.number 5)) (.exactly (.number 2)) (.content "b"),
    .insert (some (.number 4)) (.exactly (.number 6)) (.treeReference ⟨⟨2⟩, .number 3⟩),
    .insert (some (.number 4)) (.exactly (.number 7)) (.content "c"),
    .insert (some (.number 7)) (.exactly (.number 9)) (.content "b")]

/-- What the nodes of these donors and of this tree stand for. -/
def borrowed : List (Subtree String) :=
  let leaf (key : UInt64) : Forest String := .cons (.number key) "b" .nil .nil
  [⟨"b", .nil⟩, ⟨"a", leaf 2⟩, ⟨"c", leaf 8⟩, ⟨"c", leaf 9⟩,
    ⟨"z", .cons (.number 5) "a" (leaf 2) (.cons (.number 6) "c" (leaf 8)
      (.cons (.number 7) "c" (leaf 9) .nil))⟩]

/-- The tree becomes references wherever donors that count store the same. -/
theorem rows_of_normalize_borrower :
    (∀ store ∈ borrower :: lenders, store.Reachable) ∧
      (∀ store ∈ borrower :: lenders, store.KeysFit) ∧ Content.Faithful String ∧
      (∀ left right, Hashed lenders borrower left → Hashed lenders borrower right →
        Digest.of left = Digest.of right → left = right) ∧
      ∃ normalized, ((Donors.ofStores lenders).normalize [borrower.tree]).result =
          .ok [normalized] ∧
        normalized.tree.rows.map (fun row => (row.1, row.2.parent, row.2.payload)) =
          [(.number 4, none, .content "z"),
            (.number 5, some (.number 4), .treeReference ⟨⟨1⟩, .number 1⟩),
            (.number 6, some (.number 4), .treeReference ⟨⟨2⟩, .number 3⟩),
            (.number 7, some (.number 4), .nodeReference ⟨⟨2⟩, .number 3⟩),
            (.number 9, some (.number 7), .treeReference ⟨⟨1⟩, .number 2⟩)] := by
  have reachable : ∀ store ∈ borrower :: lenders, store.Reachable := by
    intro store inside
    simp only [lenders, List.mem_cons, List.not_mem_nil, or_false] at inside
    rcases inside with rfl | rfl | rfl | rfl <;> exact Store.reachable_ofEdits _ _
  have fits : ∀ store ∈ borrower :: lenders, ∀ key ∈ store.keys, key.Fits := by decide +kernel
  have keysFit : ∀ store ∈ borrower :: lenders, store.KeysFit :=
    fun store inside key holds => fits store inside key (Store.mem_keys_iff.mpr holds)
  have described : ∀ site ∈ borrower.sites ++ Donors.sites lenders,
      ∃ subtree ∈ borrowed, Describes lenders site subtree := by decide +kernel
  have apart : ∀ left right, Hashed lenders borrower left → Hashed lenders borrower right →
      Digest.of left = Digest.of right → left = right :=
    apart_of_described (fun store inside => (reachable store inside).wellFormed) described
      (by decide +kernel)
  have succeeds : (do
      let restated ← (Donors.ofStores lenders).normalize [borrower.tree]
      return restated.length : Read Nat).result = .ok 1 := by decide +kernel
  obtain ⟨restated, ok, length⟩ := Read.result_bind_eq_ok succeeds
  obtain ⟨normalized, rfl⟩ := List.length_eq_one_iff.mp (Except.ok.inj length)
  obtain ⟨-, -, rows, -⟩ := rows_of_normalize reachable keysFit Content.faithful_string apart ok
  refine ⟨reachable, keysFit, Content.faithful_string, apart, normalized, ok, ?_⟩
  rw [rows]
  decide +kernel

end Normalized

end VersionedTrees
