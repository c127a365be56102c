import VersionedTrees.Proofs.Donors.Preservation
import VersionedTrees.Proofs.Donors.Settled

/-!
# Deciding sameness of subtrees by digests

An index tells digests of the nodes of its donors and of the nodes of any tree whose references it can
follow (`DonorIndex.Records`). Two such nodes stand for the same subtree exactly if the digests of their
subtrees are the same, whether what they stand for is spelled out, spread over donors or put together from
both (`DonorIndex.records_decide`). That the same subtrees have the same digests needs no assumption. That
different ones have different digests is so as long as no two byte strings that are hashed share a digest:
the bytes of keys and digests side by side can be read in one way only, so that the digests of the parts
can be told from the digest of the whole.
-/

namespace VersionedTrees

variable {C : Type} [Content C]

namespace DonorIndex

/-- An index tells the digests of a node: those that it has, if the node is one of a donor that counts,
and otherwise those that it computes for the tree of the node. -/
inductive Records (index : DonorIndex) (stores : List (Store C)) (site : Site C) (digest : NodeDigest) : Prop
  | donor (counts : site.store ∈ Donors.counted stores)
      (told : digestAt index.digests site = some digest)
  | target {table : DigestTable}
      (computed : (index.digestsOf site.store.tree (Donors.ofStores stores)).result = .ok table)
      (told : table.nodes[site.key]? = some digest)

variable {stores : List (Store C)} {index : DonorIndex} {site : Site C} {target : Store C}
  {table : DigestTable} {digest : NodeDigest} {key : Key}

/-- What is recorded of a node are the digests of what it stands for. -/
theorem Records.digested (wellFormed : site.store.WellFormed) (indexes : index.Indexes stores)
    (computed : Computed stores (identifiers (Donors.ofStores stores)) index.digests)
    (records : index.Records stores site digest) : site.Digested stores digest := by
  cases records with
  | target told there =>
      exact (assures_ofTree Read.assures wellFormed indexes.targets _ told).digested _ _ there
  | donor counts told =>
      obtain ⟨table, found, there⟩ := Option.bind_eq_some_iff.mp told
      obtain ⟨store, counts', tabulates⟩ := computed.tabulated _ table found
      obtain rfl := Option.some.inj (counts'.symm.trans (Donors.mem_counted_iff.mp counts))
      exact tabulates.digested _ _ there

/-- Every node of a donor that counts has its digests recorded. -/
theorem exists_records_of_counted (wellFormed : ∀ store ∈ stores, store.WellFormed)
    (computed : Computed stores (identifiers (Donors.ofStores stores)) index.digests)
    (counts : site.store ∈ Donors.counted stores) (holds : site.store.layout.Holds site.key) :
    ∃ digest, index.Records stores site digest := by
  obtain ⟨subtree, -, told⟩ :=
    exists_digestAt wellFormed computed ((Donors.mem_sites_iff wellFormed).mpr ⟨counts, holds⟩)
  exact ⟨_, .donor counts told⟩

/-- Every node of a tree whose digests are computed has them recorded. -/
theorem exists_records_of_target (wellFormed : target.WellFormed) (indexes : index.Indexes stores)
    (told : (index.digestsOf target.tree (Donors.ofStores stores)).result = .ok table)
    (holds : target.layout.Holds key) : ∃ digest, index.Records stores ⟨target, key⟩ digest := by
  obtain ⟨subtree, -, there⟩ :=
    (assures_ofTree Read.assures wellFormed indexes.targets table told).exists_describes holds
  exact ⟨_, .target told there⟩

/-- A recorded node is marked as explicit if it and all nodes below it hold content. -/
theorem isExplicit_nodeDigest_iff (wellFormed : site.store.WellFormed)
    (holds : site.store.layout.Holds site.key) (subtree : Subtree C) :
    (site.nodeDigest subtree).isExplicit = true ↔ ∀ key, site.store.layout.Within site.key key →
      ∃ value, site.store.payload? key = some (.content value) :=
  wellFormed.isSome_plain?_iff holds

/-- An index records digests of all nodes of the donors that count and of all nodes of the trees whose
digests it can compute. Two nodes with recorded digests stand for subtrees, and these are the same exactly
if the digests of the subtrees are, where contents are written without loss and no two byte strings that are
hashed share a digest. A node is
marked as explicit exactly if it and all nodes below it hold content. -/
theorem records_decide (reachable : ∀ store ∈ stores, store.Reachable)
    (built : (build (Donors.ofStores stores)).result = .ok index) :
    (∀ site : Site C, site.store ∈ Donors.counted stores → site.store.layout.Holds site.key →
      ∃ digest, index.Records stores site digest) ∧
    (∀ (target : Store C) (table : DigestTable), target.Reachable →
      (index.digestsOf target.tree (Donors.ofStores stores)).result = .ok table →
      ∀ key, target.layout.Holds key → ∃ digest, index.Records stores ⟨target, key⟩ digest) ∧
    ∀ (left right : Site C) (digest digest' : NodeDigest), left.store.Reachable → right.store.Reachable →
      index.Records stores left digest → index.Records stores right digest' →
      ∃ subtree subtree', Describes stores left subtree ∧ Describes stores right subtree' ∧
        (subtree = subtree' → digest.subtree = digest'.subtree) ∧
        (Content.Faithful C → (∀ store ∈ left.store :: right.store :: stores, store.KeysFit) →
          (∀ first second, HashedFor stores [left.store, right.store] first →
            HashedFor stores [left.store, right.store] second →
              Digest.of first = Digest.of second → first = second) →
          digest.subtree = digest'.subtree → subtree = subtree') ∧
        (digest.isExplicit = true ↔ ∀ key, left.store.layout.Within left.key key →
          ∃ value, left.store.payload? key = some (.content value)) := by
  have wellFormed : ∀ store ∈ stores, store.WellFormed :=
    fun store inside => (reachable store inside).wellFormed
  have indexes := indexes_of_buildInOrder wellFormed (fun _ listed => listed) built
  obtain ⟨computed, -⟩ := computed_of_buildInOrder wellFormed (fun _ listed => listed) built
  refine ⟨fun site => exists_records_of_counted wellFormed computed,
    fun target table reachable told key => exists_records_of_target reachable.wellFormed indexes told, ?_⟩
  intro left right digest digest' reachable reachable' records records'
  have wellFormedLeft := reachable.wellFormed
  have wellFormedRight := reachable'.wellFormed
  obtain ⟨subtree, describes, rfl⟩ := records.digested wellFormedLeft indexes computed
  obtain ⟨subtree', describes', rfl⟩ := records'.digested wellFormedRight indexes computed
  refine ⟨subtree, subtree', describes, describes', ?_, fun faithful keysFit apart same => ?_,
    isExplicit_nodeDigest_iff wellFormedLeft describes.holds subtree⟩
  · rintro rfl
    rfl
  · have discernible : Discernible stores [left.store, right.store] :=
      ⟨faithful,
        List.forall_mem_cons.mpr ⟨wellFormedLeft, List.forall_mem_cons.mpr ⟨wellFormedRight, wellFormed⟩⟩,
        keysFit, apart⟩
    exact discernible.subtree_eq_of_digest (.inl List.mem_cons_self)
      (.inl (List.mem_cons_of_mem _ List.mem_cons_self)) describes describes' same

/-- A reference to a node of the chain and the node itself have the same digest, and only the node is
explicit. Two nodes with the same content and different nodes below them have different digests. -/
theorem records_decide_chain :
    let borrower := Normalized.chainBorrower
    (∀ store ∈ [borrower, .chain], store.Reachable ∧ store.KeysFit) ∧ Content.Faithful String ∧
      (∀ first second, HashedFor [.chain] [borrower, .chain] first →
        HashedFor [.chain] [borrower, .chain] second → Digest.of first = Digest.of second →
          first = second) ∧
      ∃ index : DonorIndex, (build (Donors.ofStores [Store.chain])).result = .ok index ∧
        ∃ referred stored bare whole,
          index.Records [.chain] ⟨borrower, .number 11⟩ referred ∧
          index.Records [.chain] ⟨.chain, .number 2⟩ stored ∧
          index.Records [.chain] ⟨borrower, .number 13⟩ bare ∧
          index.Records [.chain] ⟨.chain, .number 1⟩ whole ∧
          referred.subtree = stored.subtree ∧ referred.isExplicit = false ∧ stored.isExplicit = true ∧
          bare.subtree ≠ whole.subtree := by
  intro borrower
  have borrowerReachable : borrower.Reachable := Store.reachable_ofEdits _ _
  have chainReachable : Store.chain.Reachable := Store.reachable_ofEdits _ _
  have fits : ∀ store ∈ [Normalized.chainBorrower, .chain], ∀ key ∈ store.keys, key.Fits := by
    decide +kernel
  have keysFit : ∀ store ∈ [borrower, .chain], store.KeysFit :=
    fun store inside key holds => fits store inside key (Store.mem_keys_iff.mpr holds)
  have among : ∀ store ∈ [borrower, .chain, .chain], store ∈ [borrower, .chain] := by simp
  have reachable : ∀ store ∈ [borrower, .chain], store.Reachable := by
    simp [borrowerReachable, chainReachable]
  have described : ∀ site ∈ [Normalized.chainBorrower, .chain].flatMap Store.sites ++
      Donors.sites [Store.chain],
        ∃ subtree ∈ Normalized.chainBorrowed, Describes [.chain] site subtree := by decide +kernel
  have apart : ∀ first second, HashedFor [.chain] [borrower, .chain] first →
      HashedFor [.chain] [borrower, .chain] second → Digest.of first = Digest.of second →
        first = second :=
    HashedFor.apart_of_described (fun store inside => (reachable store (among store inside)).wellFormed)
      described (by decide +kernel)
  have succeeds : (do
      let index ← build (Donors.ofStores [Store.chain])
      let table ← index.digestsOf Normalized.chainBorrower.tree (Donors.ofStores [Store.chain])
      return table.order.length : Read Nat).result = .ok 4 := by decide +kernel
  obtain ⟨index, built, computes⟩ := Read.result_bind_eq_ok succeeds
  obtain ⟨table, computed, -⟩ := Read.result_bind_eq_ok computes
  obtain ⟨ofDonor, ofTarget, decides⟩ :=
    records_decide (List.forall_mem_singleton.mpr chainReachable) built
  have chainRecords : ∀ key ∈ Store.chain.keys, ∃ digest, index.Records [.chain] ⟨.chain, key⟩ digest :=
    fun key inside => ofDonor _ (Donors.mem_counted_iff.mpr rfl) (Store.mem_keys_iff.mp inside)
  have borrowerRecords : ∀ key ∈ borrower.keys, ∃ digest, index.Records [.chain] ⟨borrower, key⟩ digest :=
    fun key inside => ofTarget _ table borrowerReachable computed key (Store.mem_keys_iff.mp inside)
  obtain ⟨referred, records⟩ := borrowerRecords (.number 11) (by decide +kernel)
  obtain ⟨stored, records'⟩ := chainRecords (.number 2) (by decide +kernel)
  obtain ⟨bare, recordsBare⟩ := borrowerRecords (.number 13) (by decide +kernel)
  obtain ⟨whole, recordsWhole⟩ := chainRecords (.number 1) (by decide +kernel)
  refine ⟨fun store inside => ⟨reachable store inside, keysFit store inside⟩, Content.faithful_string,
    apart, index, built, referred, stored, bare, whole, records, records', recordsBare, recordsWhole,
    ?_, ?_, ?_, ?_⟩
  · obtain ⟨subtree, subtree', describes, describes', equal, -⟩ :=
      decides _ _ referred stored borrowerReachable chainReachable records records'
    have middle : Describes [.chain] ⟨borrower, .number 11⟩
        ⟨"middle", .cons (.number 3) "leaf" .nil .nil⟩ := by decide +kernel
    have middle' : Describes [.chain] ⟨.chain, .number 2⟩
        ⟨"middle", .cons (.number 3) "leaf" .nil .nil⟩ := by decide +kernel
    exact equal ((describes.unique middle).trans (middle'.unique describes'))
  · obtain ⟨_, _, describes, -, -, -, explicit⟩ :=
      decides _ _ referred stored borrowerReachable chainReachable records records'
    refine eq_false_of_ne_true fun isExplicit => ?_
    have self := borrowerReachable.wellFormed.isTree.within_self describes.holds
    obtain ⟨value, held⟩ := explicit.mp isExplicit (.number 11) self
    have reference : Normalized.chainBorrower.payload? (.number 11) =
        some (.treeReference ⟨⟨1⟩, .number 2⟩) := by decide +kernel
    cases reference.symm.trans held
  · obtain ⟨_, _, -, -, -, -, explicit⟩ :=
      decides _ _ stored stored chainReachable chainReachable records' records'
    refine explicit.mpr fun key within => ?_
    obtain ⟨standing, found⟩ := within.holds
    obtain ⟨value, content⟩ := Store.allContent_chain.exists_content found
    exact ⟨value, (Store.payload?_of_layout found).trans (congrArg some content)⟩
  · obtain ⟨subtree, subtree', describes, describes', -, only, -⟩ :=
      decides _ _ bare whole borrowerReachable chainReachable recordsBare recordsWhole
    intro same
    have equal := only Content.faithful_string
      (fun store inside => keysFit store (among store inside)) apart same
    have root : Describes [.chain] ⟨borrower, .number 13⟩ ⟨"root", .nil⟩ := by decide +kernel
    rw [← equal, describes.unique root] at describes'
    revert describes'
    decide +kernel

end DonorIndex

end VersionedTrees
