import Mathlib.Data.List.Dedup
import VersionedTrees.Proofs.Digest.Matching
import VersionedTrees.Proofs.Donors.Tables

/-!
# What an index finds

The index of donors finds, for the digest of a subtree, the first donor node that stores a subtree with
this digest, and for the digest of content the first donor node that stores such content
(`DonorIndex.Indexes`). The order in which the digests of donors were computed does not matter. If no two
of the byte strings that are hashed share a digest, then digests stand for what they are digests of
(`Discernible.subtree_eq_of_digest`), and the index finds the first node that stores the same.
-/

namespace VersionedTrees

variable {C : Type} [Content C]

/-! ## The nodes of donors -/

namespace Site

/-- The subtree at the node, if all nodes there hold content of their own. -/
def plain? (site : Site C) : Option (Subtree C) :=
  site.store.plain? site.key

/-- The content that the node itself holds. -/
def own? (site : Site C) : Option C :=
  site.payload?.bind Payload.content?

end Site

/-- The nodes of a store, in pre-order. -/
def Store.sites (store : Store C) : List (Site C) :=
  store.rows.map fun row => ⟨store, row.1⟩

/-- The nodes of the stores that count, in order of preference. -/
def Donors.sites (stores : List (Store C)) : List (Site C) :=
  (counted stores).flatMap Store.sites

section Sites

variable {stores : List (Store C)} {store : Store C} {site : Site C} {subtree : Subtree C} {value : C}

omit [Content C] in
theorem Store.WellFormed.mem_sites_iff (wellFormed : store.WellFormed) :
    site ∈ store.sites ↔ site.store = store ∧ store.layout.Holds site.key := by
  rw [Store.sites, List.mem_map]
  constructor
  · rintro ⟨row, inside, rfl⟩
    exact ⟨rfl, row.2, wellFormed.mem_rows_iff.mp inside⟩
  · rintro ⟨rfl, standing, found⟩
    exact ⟨_, wellFormed.mem_rows_iff.mpr found, rfl⟩

omit [Content C] in
theorem Donors.mem_sites_iff (wellFormed : ∀ store ∈ stores, store.WellFormed) :
    site ∈ sites stores ↔ site.store ∈ counted stores ∧ site.store.layout.Holds site.key := by
  rw [sites, List.mem_flatMap]
  have wellFormed' : ∀ store ∈ counted stores, store.WellFormed := fun store counts =>
    wellFormed store (mem_of_storeOf (mem_counted_iff.mp counts))
  constructor
  · rintro ⟨store, counts, inside⟩
    obtain ⟨rfl, holds⟩ := (wellFormed' store counts).mem_sites_iff.mp inside
    exact ⟨counts, holds⟩
  · rintro ⟨counts, holds⟩
    exact ⟨site.store, counts, (wellFormed' _ counts).mem_sites_iff.mpr ⟨rfl, holds⟩⟩

omit [Content C] in
/-- A reference to a donor node that holds content stands for this content. -/
theorem Donors.lent_of_own? (wellFormed : ∀ store ∈ stores, store.WellFormed) (inside : site ∈ sites stores)
    (own : site.own? = some value) : lent stores (.nodeReference site.reference) = some value := by
  obtain ⟨counts, -⟩ := (mem_sites_iff wellFormed).mp inside
  obtain ⟨payload, there, content⟩ := Option.bind_eq_some_iff.mp own
  obtain rfl := Payload.content?_eq_some_iff.mp content
  have points : (Payload.nodeReference site.reference : Payload C).reference? = some site.reference := rfl
  exact (lent_eq_some_iff points).mpr ⟨site.store, mem_counted_iff.mp counts, there⟩

omit [Content C] in
/-- A tree-reference to a donor node that stores a subtree stands for this subtree. -/
theorem Donors.describes_of_plain? (wellFormed : ∀ store ∈ stores, store.WellFormed)
    (inside : site ∈ sites stores) (plain : site.plain? = some subtree) {borrower : Site C}
    (there : borrower.payload? = some (.treeReference site.reference)) :
    Describes stores borrower subtree := by
  obtain ⟨counts, holds⟩ := (mem_sites_iff wellFormed).mp inside
  have counted := mem_counted_iff.mp counts
  have stored := ((wellFormed _ (mem_of_storeOf counted)).plain?_eq_some_iff holds).mp plain
  exact (describes_of_treeReference there).mpr
    ⟨site.store, counted, stored.1, Store.describes_of_plain stores plain⟩

omit [Content C] in
/-- A node that holds content of its own holds what it stands for. -/
theorem Site.own?_eq_some_iff (describes : Describes stores site subtree) :
    site.own? = some value ↔ site.payload?.any (!·.isReference) = true ∧
      subtree.content = value := by
  obtain ⟨payload, there, lent⟩ := Option.bind_eq_some_iff.mp describes.1
  rw [own?, there, Option.bind_some, Option.any_some]
  cases payload with
  | content other =>
      obtain rfl := Option.some.inj lent
      exact ⟨fun same => ⟨rfl, Option.some.inj same⟩, fun same => congrArg some same.2⟩
  | nodeReference reference => exact iff_of_false nofun fun same => nomatch same.1
  | treeReference reference => exact iff_of_false nofun fun same => nomatch same.1

omit [Content C] in
/-- A node that has a subtree without references stands for it. -/
theorem Site.plain?_eq_some_iff {other : Subtree C} (describes : Describes stores site subtree) :
    site.plain? = some other ↔ site.plain?.isSome = true ∧ subtree = other := by
  constructor
  · intro plain
    rw [plain]
    exact ⟨rfl, describes.unique (Store.describes_of_plain stores plain)⟩
  · rintro ⟨some, rfl⟩
    obtain ⟨other, plain⟩ := Option.isSome_iff_exists.mp some
    rw [plain, describes.unique (Store.describes_of_plain stores plain)]

/-- The digests of a node tell whether it stores a subtree with a digest. -/
theorem Site.any_plain? (describes : Describes stores site subtree) (digest : Digest) :
    site.plain?.any (·.digest = digest) =
      decide (site.plain?.isSome = true ∧ decide (subtree.digest = digest) = true) := by
  rw [Bool.eq_iff_iff]
  simp only [Option.any_eq_true, decide_eq_true_eq, plain?_eq_some_iff describes, and_assoc,
    exists_and_left, exists_eq_left']

/-- The digests of a node tell whether it holds content with a digest of its own. -/
theorem Site.any_own? (describes : Describes stores site subtree) (digest : Digest) :
    site.own?.any (Content.digest · = digest) =
      decide (site.payload?.any (!·.isReference) = true ∧
        decide (Content.digest subtree.content = digest) = true) := by
  rw [Bool.eq_iff_iff]
  simp only [Option.any_eq_true, decide_eq_true_eq, own?_eq_some_iff describes, and_assoc,
    exists_and_left, exists_eq_left']

end Sites

/-! ## Look-ups -/

namespace DonorIndex

variable {stores : List (Store C)} {digests : DonorDigests} {index : DonorIndex} {site : Site C}

/-- The digests of a node among those that have been computed. -/
def digestAt (digests : DonorDigests) (site : Site C) : Option NodeDigest :=
  digests[site.store.id]?.bind fun table => table.nodes[site.key]?

omit [Content C] in
/-- A table of first entries finds the first of the entries. -/
theorem getElem?_firstEntries {α : Type} (entries : List α) (label : α → Digest)
    (value : α → Reference) (found : Std.TreeMap Digest Reference) (digest : Digest) :
    (entries.foldl (fun found entry => found.insertIfNew (label entry) (value entry)) found)[digest]? =
      found[digest]?.or ((entries.find? fun entry => label entry = digest).map value) := by
  induction entries generalizing found with
  | nil => exact Option.or_none.symm
  | cons entry entries inductionHypothesis =>
      rw [List.foldl_cons, inductionHypothesis, Std.TreeMap.getElem?_insertIfNew, List.find?_cons]
      by_cases same : label entry = digest
      · subst same
        cases there : found[label entry]? with
        | none =>
            have new : ¬ label entry ∈ found := by
              rw [Std.TreeMap.mem_iff_isSome_getElem?, there]
              exact Bool.false_ne_true
            simp [new]
        | some reference =>
            have old : label entry ∈ found := by
              rw [Std.TreeMap.mem_iff_isSome_getElem?, there]
              rfl
            simp [old]
      · simp [same]

/-- The entries of an index are the nodes of the donors that count, with their digests. -/
theorem entries_eq (computed : Computed stores (identifiers (Donors.ofStores stores)) digests) :
    (identifiers (Donors.ofStores stores)).flatMap (entriesOf digests) =
      (Donors.sites stores).filterMap fun site => (digestAt digests site).map (site.reference, ·) := by
  have identified : identifiers (Donors.ofStores stores) = (stores.map (·.id)).eraseDups := by
    rw [identifiers, Donors.ofStores, List.map_map]
    rfl
  rw [Donors.sites, Donors.counted, ← identified, List.filterMap_flatMap,
    List.filterMap_eq_flatMap_toList, List.flatMap_assoc]
  apply List.flatMap_congr
  intro id inside
  obtain ⟨store, table, found, counts, tabulates⟩ := computed.exists_table inside
  obtain rfl := Donors.id_of_storeOf counts
  rw [entriesOf, found, counts, Option.toList_some, List.flatMap_singleton, Store.sites,
    List.filterMap_map]
  change List.filterMap _ table.order = _
  rw [tabulates.order, List.filterMap_map]
  apply List.filterMap_congr
  intro row _
  rw [Function.comp_apply, Function.comp_apply, digestAt, found]
  rfl

/-- Every node of a donor that counts has its digests computed. -/
theorem exists_digestAt (wellFormed : ∀ store ∈ stores, store.WellFormed)
    (computed : Computed stores (identifiers (Donors.ofStores stores)) digests)
    (inside : site ∈ Donors.sites stores) :
    ∃ subtree, Describes stores site subtree ∧
      digestAt digests site = some (site.nodeDigest subtree) := by
  obtain ⟨counts, holds⟩ := (Donors.mem_sites_iff wellFormed).mp inside
  have listed : site.store.id ∈ identifiers (Donors.ofStores stores) := by
    rw [identifiers, List.mem_eraseDups, Donors.ofStores, List.map_map]
    exact List.mem_map.mpr ⟨_, Donors.mem_of_storeOf (Donors.mem_counted_iff.mp counts), rfl⟩
  obtain ⟨store, table, found, counts', tabulates⟩ := computed.exists_table listed
  obtain rfl := Option.some.inj (counts'.symm.trans (Donors.mem_counted_iff.mp counts))
  obtain ⟨subtree, describes, there⟩ := tabulates.exists_describes holds
  exact ⟨subtree, describes, by rw [digestAt, found]; exact there⟩

/-- What an index finds are the first nodes of donors that store what has the digest. -/
structure Indexes (index : DonorIndex) (stores : List (Store C)) : Prop where
  subtree? : ∀ digest, index.subtree? digest = ((Donors.sites stores).find? fun site =>
    site.plain?.any (·.digest = digest)).map Site.reference
  content? : ∀ digest, index.content? digest = ((Donors.sites stores).find? fun site =>
    site.own?.any (Content.digest · = digest)).map Site.reference
  described : ∀ site ∈ Donors.sites stores, ∃ subtree, Describes stores site subtree
  targets : ∀ reference, Read.assures.assures (index.referenceDigest reference) fun digest =>
    ∃ target subtree, Donors.storeOf stores reference.tree = some target ∧
      Describes stores ⟨target, reference.key⟩ subtree ∧ digest = subtree.digest

/-- A reference that an index finds for a digest of content stands for content with this digest. -/
theorem Indexes.exists_lent_of_content? (indexes : index.Indexes stores)
    (wellFormed : ∀ store ∈ stores, store.WellFormed) {digest : Digest} {reference : Reference}
    (found : index.content? digest = some reference) : ∃ value,
      Donors.lent stores (.nodeReference reference) = some value ∧ Content.digest value = digest := by
  rw [indexes.content?] at found
  obtain ⟨donor, first, rfl⟩ := Option.map_eq_some_iff.mp found
  have accepted := List.find?_some first
  obtain ⟨value, own, same⟩ := (Option.any_eq_true _ _).mp accepted
  exact ⟨value, Donors.lent_of_own? wellFormed (List.mem_of_find?_eq_some first) own,
    of_decide_eq_true same⟩

/-- A node that refers to what an index finds for the digest of a subtree stands for a subtree with this
digest. -/
theorem Indexes.exists_describes_of_subtree? (indexes : index.Indexes stores)
    (wellFormed : ∀ store ∈ stores, store.WellFormed) {digest : Digest} {reference : Reference}
    (found : index.subtree? digest = some reference)
    (there : site.payload? = some (.treeReference reference)) :
    ∃ subtree, Describes stores site subtree ∧ subtree.digest = digest := by
  rw [indexes.subtree?] at found
  obtain ⟨donor, first, rfl⟩ := Option.map_eq_some_iff.mp found
  have accepted := List.find?_some first
  obtain ⟨subtree, plain, same⟩ := (Option.any_eq_true _ _).mp accepted
  exact ⟨subtree, Donors.describes_of_plain? wellFormed (List.mem_of_find?_eq_some first) plain there,
    of_decide_eq_true same⟩

omit [Content C] in
/-- What holds of the same items of a list is found at the same item. -/
theorem find?_eq_find? {items : List (Site C)} {first second : Site C → Bool}
    (same : ∀ item ∈ items, first item = second item) : items.find? first = items.find? second := by
  induction items with
  | nil => rfl
  | cons item items inductionHypothesis =>
      rw [List.find?_cons, List.find?_cons, same item List.mem_cons_self,
        inductionHypothesis fun other inside => same other (List.mem_cons_of_mem _ inside)]

/-- The first of the entries that are accepted is told by the first node whose digests are accepted. -/
theorem find?_entries (accepts : NodeDigest → Bool)
    (computed : Computed stores (identifiers (Donors.ofStores stores)) digests) :
    (((identifiers (Donors.ofStores stores)).flatMap (entriesOf digests)).find?
        fun entry => accepts entry.2).map Prod.fst =
      ((Donors.sites stores).find? fun site => (digestAt digests site).any accepts).map
        Site.reference := by
  rw [entries_eq computed, List.find?_filterMap]
  have told : (fun site : Site C => ((digestAt digests site).map (site.reference, ·)).any
      fun entry => accepts entry.2) = fun site => (digestAt digests site).any accepts := by
    funext site
    cases digestAt digests site <;> rfl
  rw [told]
  cases found : (Donors.sites stores).find? fun site => (digestAt digests site).any accepts with
  | none => rfl
  | some site =>
      have accepted := List.find?_some found
      cases there : digestAt digests site with
      | none =>
          rw [there] at accepted
          cases accepted
      | some digest =>
          rw [Option.bind_some, there]
          rfl

/-- A table of the first nodes with a label, among those of a kind, finds the first node that stores what
has the label. -/
theorem getElem?_firstEntries_entries (wellFormed : ∀ store ∈ stores, store.WellFormed)
    (computed : Computed stores (identifiers (Donors.ofStores stores)) digests)
    (kind : NodeDigest → Bool) (label : NodeDigest → Digest) (digest : Digest)
    {stores? : Site C → Bool}
    (told : ∀ site subtree, Describes stores site subtree →
      stores? site = decide (kind (site.nodeDigest subtree) = true ∧
        decide (label (site.nodeDigest subtree) = digest) = true)) :
    ((((identifiers (Donors.ofStores stores)).flatMap (entriesOf digests)).filter
        fun entry => kind entry.2).foldl
      (fun found entry => found.insertIfNew (label entry.2) entry.1)
      (∅ : Std.TreeMap Digest Reference))[digest]? =
      ((Donors.sites stores).find? stores?).map Site.reference := by
  rw [getElem?_firstEntries _ (fun entry => label entry.2) Prod.fst, Std.TreeMap.getElem?_emptyc,
    Option.none_or, List.find?_filter]
  refine (find?_entries
    (fun entry => kind entry = true ∧ decide (label entry = digest) = true) computed).trans ?_
  congr 1
  refine find?_eq_find? fun site inside => ?_
  obtain ⟨subtree, describes, there⟩ := exists_digestAt wellFormed computed inside
  rw [there, Option.any_some, told site subtree describes]

/-- The index of donors finds the first nodes, whatever the order in which their digests were computed. -/
theorem indexes_of_buildInOrder (wellFormed : ∀ store ∈ stores, store.WellFormed)
    {order : List TreeId} (covers : ∀ id ∈ identifiers (Donors.ofStores stores), id ∈ order)
    (ok : (buildInOrder (Donors.ofStores stores) order).result = .ok index) :
    index.Indexes stores := by
  obtain ⟨⟨⟨⟩, digests⟩, visited, ok⟩ := Read.result_bind_eq_ok ok
  obtain ⟨-, -, ok⟩ := Read.result_bind_eq_ok ok
  cases ok
  have computed : Computed stores (identifiers (Donors.ofStores stores)) digests :=
    (Computed.of_forM wellFormed (Computed.empty stores)
      (Edit.effect_of_result_toRead visited)).of_subset fun id inside =>
        List.mem_append_left _ (covers id inside)
  constructor
  case described =>
    intro site inside
    obtain ⟨subtree, describes, -⟩ := exists_digestAt wellFormed computed inside
    exact ⟨subtree, describes⟩
  case targets =>
    intro reference digest told
    obtain ⟨table, found, told⟩ := Read.result_bind_eq_ok told
    exact computed.of_target (Read.result_orFail_eq_ok_iff.mp found) told
  case subtree? =>
    intro digest
    exact getElem?_firstEntries_entries wellFormed computed (·.isExplicit) (·.subtree) digest
      fun site subtree describes => Site.any_plain? describes digest
  case content? =>
    intro digest
    exact getElem?_firstEntries_entries wellFormed computed (·.isLocal) (·.content) digest
      fun site subtree describes => Site.any_own? describes digest

end DonorIndex

/-! ## Digests stand for what they are digests of -/

/-- A store whose nodes have their digests computed when a target is normalized. -/
def Involved (stores : List (Store C)) (target store : Store C) : Prop :=
  store = target ∨ store ∈ Donors.counted stores

/-- The byte strings that are hashed when a target is normalized: the content and the subtree of each
node. -/
def Hashed (stores : List (Store C)) (target : Store C) (bytes : List UInt8) : Prop :=
  ∃ site subtree, Involved stores target site.store ∧ Describes stores site subtree ∧
    (bytes = Content.bytes subtree.content ∨ bytes = subtree.preimage)

/-- Well-formed stores under keys whose lengths fit, such that contents are written without loss and no two
different byte strings that are hashed share a digest. -/
structure Comparable (stores : List (Store C)) (target : Store C) : Prop where
  faithful : Content.Faithful C
  wellFormed : ∀ store ∈ target :: stores, store.WellFormed
  keysFit : ∀ store ∈ target :: stores, store.KeysFit
  apart : ∀ left right, Hashed stores target left → Hashed stores target right →
    Digest.of left = Digest.of right → left = right

/-- A store whose nodes have their digests computed, for one of several targets. -/
def InvolvedFor (stores targets : List (Store C)) (store : Store C) : Prop :=
  store ∈ targets ∨ store ∈ Donors.counted stores

/-- The byte strings that are hashed for any of several targets. -/
def HashedFor (stores targets : List (Store C)) (bytes : List UInt8) : Prop :=
  ∃ site subtree, InvolvedFor stores targets site.store ∧ Describes stores site subtree ∧
    (bytes = Content.bytes subtree.content ∨ bytes = subtree.preimage)

/-- The nodes of well-formed donors and targets can be told apart by their digests: contents are written
without loss, the lengths of the keys fit, and no two different byte strings that are hashed share a
digest. -/
structure Discernible (stores targets : List (Store C)) : Prop where
  faithful : Content.Faithful C
  wellFormed : ∀ store ∈ targets ++ stores, store.WellFormed
  keysFit : ∀ store ∈ targets ++ stores, store.KeysFit
  apart : ∀ left right, HashedFor stores targets left → HashedFor stores targets right →
    Digest.of left = Digest.of right → left = right

section Discerning

variable {stores targets : List (Store C)} {store store' : Store C} {site other source : Site C}
  {keys keys' : List Key} {forest forest' : Forest C} {subtree subtree' : Subtree C}

omit [Content C] in
theorem InvolvedFor.mem (involved : InvolvedFor stores targets store) : store ∈ targets ++ stores := by
  rcases involved with inside | counts
  · exact List.mem_append_left _ inside
  · exact List.mem_append_right _ (Donors.mem_of_storeOf (Donors.mem_counted_iff.mp counts))

omit [Content C] in
/-- What is below a node of an involved store is in an involved store. -/
theorem InvolvedFor.of_source (involved : InvolvedFor stores targets site.store)
    (found : source ∈ site.source? stores) : InvolvedFor stores targets source.store := by
  rw [Site.source?] at found
  split at found
  · rename_i reference there
    obtain ⟨donor, counts, rfl⟩ := Option.map_eq_some_iff.mp found
    have same := Donors.id_of_storeOf counts
    exact .inr (Donors.mem_counted_iff.mpr (same ▸ counts))
  · cases found
    exact involved
  · cases found
    exact involved
  · cases found

/-- The keys of a forest are those that it stands under. -/
theorem Unfolds.map_fst_digests (unfolds : Unfolds stores store keys forest) :
    forest.digests.map Prod.fst = keys := by
  induction forest generalizing keys with
  | nil => exact (unfolds_nil_iff.mp unfolds).symm
  | cons key value below rest belowHypothesis restHypothesis =>
      obtain ⟨others, rfl, -, later⟩ := unfolds_cons_iff.mp unfolds
      rw [Forest.digests, List.map_cons, restHypothesis later]

/-- What is hashed is known once it is known what the nodes stand for. -/
theorem HashedFor.mem_of_described {subtrees : List (Subtree C)} {bytes : List UInt8}
    (wellFormed : ∀ store ∈ targets ++ stores, store.WellFormed)
    (described : ∀ site ∈ targets.flatMap Store.sites ++ Donors.sites stores,
      ∃ subtree ∈ subtrees, Describes stores site subtree) (hashed : HashedFor stores targets bytes) :
    bytes ∈ subtrees.flatMap fun subtree => [Content.bytes subtree.content, subtree.preimage] := by
  obtain ⟨wellFormedTargets, wellFormed⟩ := List.forall_mem_append.mp wellFormed
  obtain ⟨site, subtree, involved, describes, same⟩ := hashed
  have inside : site ∈ targets.flatMap Store.sites ++ Donors.sites stores := by
    rcases involved with target | counts
    · refine List.mem_append_left _ (List.mem_flatMap.mpr ⟨site.store, target, ?_⟩)
      exact (wellFormedTargets _ target).mem_sites_iff.mpr ⟨rfl, describes.holds⟩
    · exact List.mem_append_right _
        ((Donors.mem_sites_iff wellFormed).mpr ⟨counts, describes.holds⟩)
  obtain ⟨other, among, describes'⟩ := described site inside
  obtain rfl := describes.unique describes'
  refine List.mem_flatMap.mpr ⟨subtree, among, ?_⟩
  rcases same with rfl | rfl
  · exact List.mem_cons_self
  · exact List.mem_cons_of_mem _ List.mem_cons_self

/-- If the digests of all that is hashed differ, no two different byte strings share one. -/
theorem HashedFor.apart_of_described {subtrees : List (Subtree C)}
    (wellFormed : ∀ store ∈ targets ++ stores, store.WellFormed)
    (described : ∀ site ∈ targets.flatMap Store.sites ++ Donors.sites stores,
      ∃ subtree ∈ subtrees, Describes stores site subtree)
    (different : ((subtrees.flatMap fun subtree =>
      [Content.bytes subtree.content, subtree.preimage]).dedup.map Digest.of).Nodup) :
    ∀ left right, HashedFor stores targets left → HashedFor stores targets right →
      Digest.of left = Digest.of right → left = right := by
  intro left right hashed hashed'
  exact collisionFree_of_nodup (fun _ inside => List.mem_dedup.mpr inside) different
    left (hashed.mem_of_described wellFormed described)
    right (hashed'.mem_of_described wellFormed described)

namespace Discernible

variable (discernible : Discernible stores targets)
include discernible

/-- The keys of what is below a node fit. -/
theorem fits_below (involved : InvolvedFor stores targets site.store)
    (describes : Describes stores site subtree) :
    ∀ child ∈ subtree.below.digests, child.1.Fits := by
  intro child inside
  obtain ⟨-, source, found, unfolds⟩ := describes
  have listed : child.1 ∈ source.children := by
    rw [← unfolds.map_fst_digests]
    exact List.mem_map_of_mem inside
  have inside := (involved.of_source found).mem
  exact discernible.keysFit _ inside _
    (((discernible.wellFormed _ inside).listed.mem_iff _ _).mp listed).holds

/-- Nodes whose contents share a digest stand for the same content. -/
theorem content_eq_of_digest (involved : InvolvedFor stores targets site.store)
    (involved' : InvolvedFor stores targets other.store) (describes : Describes stores site subtree)
    (describes' : Describes stores other subtree')
    (same : Content.digest subtree.content = Content.digest subtree'.content) :
    subtree.content = subtree'.content :=
  discernible.faithful _ _ (discernible.apart _ _
    ⟨site, subtree, involved, describes, .inl rfl⟩
    ⟨other, subtree', involved', describes', .inl rfl⟩ same)

/-- Nodes whose subtrees share a digest have the same content and the same digests below them. -/
theorem parts_eq_of_digest (involved : InvolvedFor stores targets site.store)
    (involved' : InvolvedFor stores targets other.store) (describes : Describes stores site subtree)
    (describes' : Describes stores other subtree') (same : subtree.digest = subtree'.digest) :
    subtree.content = subtree'.content ∧ subtree.below.digests = subtree'.below.digests := by
  have preimages : subtree.preimage = subtree'.preimage := discernible.apart _ _
    ⟨site, subtree, involved, describes, .inr rfl⟩
    ⟨other, subtree', involved', describes', .inr rfl⟩ same
  obtain ⟨contents, below⟩ := subtreeBytes_injective (discernible.fits_below involved describes)
    (discernible.fits_below involved' describes') preimages
  exact ⟨discernible.content_eq_of_digest involved involved' describes describes' contents, below⟩

/-- Forests that share their digests are the same. -/
theorem forest_eq_of_digests (involved : InvolvedFor stores targets store)
    (involved' : InvolvedFor stores targets store') (unfolds : Unfolds stores store keys forest)
    (unfolds' : Unfolds stores store' keys' forest') (same : forest.digests = forest'.digests) :
    forest = forest' := by
  induction forest generalizing store store' keys keys' forest' with
  | nil =>
      cases forest' with
      | nil => rfl
      | cons => cases same
  | cons key value below rest belowHypothesis restHypothesis =>
      cases forest' with
      | nil => cases same
      | cons key' value' below' rest' =>
          obtain ⟨others, rfl, describes, later⟩ := unfolds_cons_iff.mp unfolds
          obtain ⟨others', rfl, describes', later'⟩ := unfolds_cons_iff.mp unfolds'
          obtain ⟨first, remaining⟩ := List.cons.inj same
          obtain ⟨rfl, digest⟩ := Prod.mk.inj first
          obtain ⟨contents, digests⟩ :=
            discernible.parts_eq_of_digest involved involved' describes describes' digest
          obtain ⟨-, source, found, lower⟩ := describes
          obtain ⟨-, source', found', lower'⟩ := describes'
          obtain rfl : value = value' := contents
          rw [belowHypothesis (involved.of_source found) (involved'.of_source found') lower lower' digests,
            restHypothesis involved involved' later later' remaining]

/-- Nodes whose subtrees share a digest stand for the same subtree. -/
theorem subtree_eq_of_digest (involved : InvolvedFor stores targets site.store)
    (involved' : InvolvedFor stores targets other.store) (describes : Describes stores site subtree)
    (describes' : Describes stores other subtree') (same : subtree.digest = subtree'.digest) :
    subtree = subtree' := by
  obtain ⟨contents, digests⟩ :=
    discernible.parts_eq_of_digest involved involved' describes describes' same
  obtain ⟨-, source, found, lower⟩ := describes
  obtain ⟨-, source', found', lower'⟩ := describes'
  exact Subtree.ext contents (discernible.forest_eq_of_digests (involved.of_source found)
    (involved'.of_source found') lower lower' digests)

end Discernible

end Discerning

/-! ## One target -/

section Comparing

variable {stores : List (Store C)} {target store : Store C} {site other : Site C}
  {subtree subtree' : Subtree C} {bytes : List UInt8}

omit [Content C] in
theorem Involved.single (involved : Involved stores target store) : InvolvedFor stores [target] store :=
  involved.imp_left List.mem_singleton.mpr

theorem Hashed.single (hashed : Hashed stores target bytes) : HashedFor stores [target] bytes :=
  let ⟨site, subtree, involved, same⟩ := hashed
  ⟨site, subtree, involved.single, same⟩

theorem HashedFor.of_single (hashed : HashedFor stores [target] bytes) : Hashed stores target bytes :=
  let ⟨site, subtree, involved, same⟩ := hashed
  ⟨site, subtree, involved.imp_left List.mem_singleton.mp, same⟩

/-- If the digests of all that is hashed for a target differ, no two different byte strings share one. -/
theorem apart_of_described {subtrees : List (Subtree C)}
    (wellFormed : ∀ store ∈ target :: stores, store.WellFormed)
    (described : ∀ site ∈ target.sites ++ Donors.sites stores,
      ∃ subtree ∈ subtrees, Describes stores site subtree)
    (different : ((subtrees.flatMap fun subtree =>
      [Content.bytes subtree.content, subtree.preimage]).dedup.map Digest.of).Nodup) :
    ∀ left right, Hashed stores target left → Hashed stores target right →
      Digest.of left = Digest.of right → left = right := by
  rw [← List.flatMap_singleton Store.sites target] at described
  exact fun left right hashed hashed' =>
    HashedFor.apart_of_described wellFormed described different left right hashed.single hashed'.single

namespace Comparable

variable (comparable : Comparable stores target)
include comparable

theorem discernible : Discernible stores [target] where
  faithful := comparable.faithful
  wellFormed := comparable.wellFormed
  keysFit := comparable.keysFit
  apart left right hashed hashed' := comparable.apart left right hashed.of_single hashed'.of_single

/-- Nodes whose subtrees share a digest stand for the same subtree. -/
theorem subtree_eq_of_digest (involved : Involved stores target site.store)
    (involved' : Involved stores target other.store) (describes : Describes stores site subtree)
    (describes' : Describes stores other subtree') (same : subtree.digest = subtree'.digest) :
    subtree = subtree' :=
  comparable.discernible.subtree_eq_of_digest involved.single involved'.single describes describes' same

/-- Nodes whose contents share a digest stand for the same content. -/
theorem content_eq_of_digest (involved : Involved stores target site.store)
    (involved' : Involved stores target other.store) (describes : Describes stores site subtree)
    (describes' : Describes stores other subtree')
    (same : Content.digest subtree.content = Content.digest subtree'.content) :
    subtree.content = subtree'.content :=
  comparable.discernible.content_eq_of_digest involved.single involved'.single describes describes' same

end Comparable

end Comparing

end VersionedTrees
