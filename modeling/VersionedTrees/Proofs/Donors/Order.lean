import VersionedTrees.Proofs.Donors.Settled
import VersionedTrees.Proofs.Store.Reachable

/-!
# The order in which donors get their digests

An index of donors has the digests of all donors, and these are determined by the donors. So whether
there is an index, and what is in it, does not depend on the donors whose digests are computed first
(`DonorIndex.build_of_any_order`).
-/

namespace VersionedTrees

variable {C : Type}

namespace DonorIndex

/-- Digests of the same donors, in which every node has the same. -/
structure SameDigests (left right : DonorDigests) : Prop where
  order : ∀ id : TreeId, left[id]?.map DigestTable.order = right[id]?.map DigestTable.order
  nodes : ∀ (id : TreeId) (key : Key),
    (left[id]?.bind fun table => table.nodes[key]?) = right[id]?.bind fun table => table.nodes[key]?

/-- Indexes that tell the same digests and find the same nodes. -/
structure SameTables (left right : DonorIndex) : Prop where
  digests : SameDigests left.digests right.digests
  subtrees : left.subtrees = right.subtrees
  contents : left.contents = right.contents

/-- The entries of a donor depend on its digests alone. -/
theorem SameDigests.entriesOf_eq {left right : DonorDigests} (same : SameDigests left right)
    (id : TreeId) : entriesOf left id = entriesOf right id := by
  have order := same.order id
  have nodes := same.nodes id
  rw [entriesOf, entriesOf]
  cases ours : left[id]? with
  | none =>
      cases theirs : right[id]? with
      | none => rfl
      | some table =>
          rw [ours, theirs] at order
          cases order
  | some table =>
      cases theirs : right[id]? with
      | none =>
          rw [ours, theirs] at order
          cases order
      | some other =>
          simp only [ours, theirs, Option.map_some, Option.some.injEq, Option.bind_some] at order nodes
          simp only [order, nodes]

section Unique

variable [Content C] {stores : List (Store C)} {store : Store C} {left right : DigestTable}

/-- Of a node, a table of its donor tells what any other table of the donor tells. -/
theorem getElem?_of_tabulates (first : Tabulates stores store left)
    (second : Tabulates stores store right) {key : Key} {digest : NodeDigest}
    (there : left.nodes[key]? = some digest) : right.nodes[key]? = some digest := by
  obtain ⟨subtree, describes, rfl⟩ := first.digested key digest there
  obtain ⟨other, describes', there'⟩ := second.exists_describes describes.holds
  rw [there', describes.unique describes']

/-- The digests of all donors are determined by the donors. -/
theorem sameDigests_of_computed {digests others : DonorDigests}
    (first : Computed stores (identifiers (Donors.ofStores stores)) digests)
    (second : Computed stores (identifiers (Donors.ofStores stores)) others) :
    SameDigests digests others := by
  have tables : ∀ id : TreeId, digests[id]? = none ∧ others[id]? = none ∨
      ∃ store left right, digests[id]? = some left ∧ others[id]? = some right ∧
        Tabulates stores store left ∧ Tabulates stores store right := by
    intro id
    by_cases listed : id ∈ identifiers (Donors.ofStores stores)
    · obtain ⟨store, left, ours, counts, tabulates⟩ := first.exists_table listed
      obtain ⟨store', right, theirs, counts', tabulates'⟩ := second.exists_table listed
      obtain rfl := Option.some.inj (counts.symm.trans counts')
      exact .inr ⟨store, left, right, ours, theirs, tabulates, tabulates'⟩
    · have absent : ∀ {digests : DonorDigests},
          Computed stores (identifiers (Donors.ofStores stores)) digests → digests[id]? = none := by
        intro digests computed
        by_contra there
        obtain ⟨table, found⟩ := Option.ne_none_iff_exists'.mp there
        obtain ⟨store, counts, -⟩ := computed.tabulated id table found
        exact listed (Donors.mem_identifiers_iff.mpr ⟨store, counts⟩)
      exact .inl ⟨absent first, absent second⟩
  constructor
  case order =>
    intro id
    rcases tables id with ⟨ours, theirs⟩ | ⟨store, left, right, ours, theirs, first, second⟩
    · rw [ours, theirs]
    · rw [ours, theirs, Option.map_some, Option.map_some, first.order, second.order]
  case nodes =>
    intro id key
    rcases tables id with ⟨ours, theirs⟩ | ⟨store, left, right, ours, theirs, first, second⟩
    · rw [ours, theirs]
    · rw [ours, theirs, Option.bind_some, Option.bind_some]
      ext digest
      exact ⟨getElem?_of_tabulates first second, getElem?_of_tabulates second first⟩

end Unique

/-- Whether there is an index of donors, and what is in it, does not depend on the order in which their
digests are computed: there is one if the donors are settled, and otherwise none. No order needs more
levels than there are. -/
theorem build_of_any_order [Content C] {stores : List (Store C)}
    (reachable : ∀ store ∈ stores, store.Reachable) :
    (∀ first second : List TreeId, first.Perm (identifiers (Donors.ofStores stores)) →
        second.Perm (identifiers (Donors.ofStores stores)) →
      (∃ left right, (buildInOrder (Donors.ofStores stores) first).result = .ok left ∧
        (buildInOrder (Donors.ofStores stores) second).result = .ok right ∧
        left.SameTables right) ∨
      ∃ fault other, (buildInOrder (Donors.ofStores stores) first).result = .error fault ∧
        (buildInOrder (Donors.ofStores stores) second).result = .error other) ∧
      (∀ order : List TreeId, order.Perm (identifiers (Donors.ofStores stores)) →
        ((∃ index, (buildInOrder (Donors.ofStores stores) order).result = .ok index) ↔
          Donors.Settled stores)) ∧
      ∀ levels, (Donors.ofStores stores).trees.length < levels → ∀ id,
        computeDigests (Donors.ofStores stores) levels [] id =
          computeDigests (Donors.ofStores stores) ((Donors.ofStores stores).trees.length + 1) []
            id := by
  have wellFormed : ∀ store ∈ stores, store.WellFormed :=
    fun store inside => (reachable store inside).wellFormed
  have settled : ∀ order : List TreeId, order.Perm (identifiers (Donors.ofStores stores)) →
      ((∃ index, (buildInOrder (Donors.ofStores stores) order).result = .ok index) ↔
        Donors.Settled stores) := by
    intro order perm
    constructor
    · rintro ⟨index, ok⟩
      exact settled_of_buildInOrder wellFormed (fun id listed => perm.mem_iff.mpr listed) ok
    · intro settled
      exact exists_buildInOrder wellFormed settled fun id inside => perm.mem_iff.mp inside
  refine ⟨fun first second perm perm' => ?_, settled, fun levels enough id => ?_⟩
  · cases ours : (buildInOrder (Donors.ofStores stores) first).result with
    | ok left =>
        obtain ⟨right, theirs⟩ := (settled second perm').mpr ((settled first perm).mp ⟨left, ours⟩)
        obtain ⟨computed, -, subtrees, contents⟩ :=
          computed_of_buildInOrder wellFormed (fun id listed => perm.mem_iff.mpr listed) ours
        obtain ⟨computed', -, subtrees', contents'⟩ :=
          computed_of_buildInOrder wellFormed (fun id listed => perm'.mem_iff.mpr listed) theirs
        have same := sameDigests_of_computed computed computed'
        have entries := List.flatMap_congr fun id (_ : id ∈ identifiers (Donors.ofStores stores)) =>
          same.entriesOf_eq id
        refine .inl ⟨left, right, rfl, theirs, same, ?_, ?_⟩
        · rw [subtrees, subtrees', entries]
        · rw [contents, contents', entries]
    | error fault =>
        cases theirs : (buildInOrder (Donors.ofStores stores) second).result with
        | ok right =>
            obtain ⟨left, impossible⟩ :=
              (settled first perm).mpr ((settled second perm').mp ⟨right, theirs⟩)
            rw [ours] at impossible
            cases impossible
        | error other => exact .inr ⟨fault, other, rfl, rfl⟩
  · exact computeDigests_eq (Waits.nil _) (Nat.lt_succ_self _) enough

/-- A donor that refers to two others, which both refer to a fourth one. -/
def diamond : List (Store String) :=
  [.ofEdits ⟨1⟩ [.insert none (.exactly (.number 1)) (.content "top"),
      .insert (some (.number 1)) (.exactly (.number 2)) (.treeReference ⟨⟨2⟩, .number 1⟩),
      .insert (some (.number 1)) (.exactly (.number 3)) (.treeReference ⟨⟨3⟩, .number 1⟩)],
    .ofEdits ⟨2⟩ [.insert none (.exactly (.number 1)) (.content "left"),
      .insert (some (.number 1)) (.exactly (.number 2)) (.treeReference ⟨⟨4⟩, .number 1⟩)],
    .ofEdits ⟨3⟩ [.insert none (.exactly (.number 1)) (.content "right"),
      .insert (some (.number 1)) (.exactly (.number 2)) (.treeReference ⟨⟨4⟩, .number 1⟩)],
    .ofEdits ⟨4⟩ [.insert none (.exactly (.number 1)) (.content "bottom")]]

/-- Two donors that refer to each other, each to a node with content. -/
def ring : List (Store String) :=
  [.ofEdits ⟨1⟩ [.insert none (.exactly (.number 1)) (.content "here"),
      .insert (some (.number 1)) (.exactly (.number 2)) (.treeReference ⟨⟨2⟩, .number 1⟩)],
    .ofEdits ⟨2⟩ [.insert none (.exactly (.number 1)) (.content "there"),
      .insert (some (.number 1)) (.exactly (.number 2)) (.treeReference ⟨⟨1⟩, .number 1⟩)]]

/-- A diamond is settled, and has the same index from its top and from its bottom. A ring is not settled,
and has no index from either side. -/
theorem build_of_any_order_diamond :
    ((∀ store ∈ diamond, store.Reachable) ∧ Donors.Settled diamond ∧
      ∃ left right, (buildInOrder (Donors.ofStores diamond) [⟨1⟩, ⟨2⟩, ⟨3⟩, ⟨4⟩]).result = .ok left ∧
        (buildInOrder (Donors.ofStores diamond) [⟨4⟩, ⟨3⟩, ⟨2⟩, ⟨1⟩]).result = .ok right ∧
        left.SameTables right) ∧
      (∀ store ∈ ring, store.Reachable) ∧ ¬ Donors.Settled ring ∧
      ∃ fault other, (buildInOrder (Donors.ofStores ring) [⟨1⟩, ⟨2⟩]).result = .error fault ∧
        (buildInOrder (Donors.ofStores ring) [⟨2⟩, ⟨1⟩]).result = .error other := by
  have settled : ∀ store ∈ diamond, store.Reachable := by
    intro store inside
    simp only [diamond, List.mem_cons, List.not_mem_nil, or_false] at inside
    rcases inside with rfl | rfl | rfl | rfl <;> exact Store.reachable_ofEdits _ _
  have circular : ∀ store ∈ ring, store.Reachable := by
    intro store inside
    simp only [ring, List.mem_cons, List.not_mem_nil, or_false] at inside
    rcases inside with rfl | rfl <;> exact Store.reachable_ofEdits _ _
  refine ⟨⟨settled, ?_⟩, circular, ?_⟩
  · obtain ⟨same, exactly, -⟩ := build_of_any_order settled
    have downwards : [⟨1⟩, ⟨2⟩, ⟨3⟩, ⟨4⟩].Perm (identifiers (Donors.ofStores diamond)) := by
      decide +kernel
    have upwards : [⟨4⟩, ⟨3⟩, ⟨2⟩, ⟨1⟩].Perm (identifiers (Donors.ofStores diamond)) := by
      decide +kernel
    have succeeds : (do
        let index ← buildInOrder (Donors.ofStores diamond) [⟨1⟩, ⟨2⟩, ⟨3⟩, ⟨4⟩]
        return index.contents.size : Read Nat).result = .ok 4 := by decide +kernel
    obtain ⟨index, ok, -⟩ := Read.result_bind_eq_ok succeeds
    refine ⟨(exactly _ downwards).mp ⟨index, ok⟩, ?_⟩
    rcases same _ _ downwards upwards with both | ⟨fault, other, failed, -⟩
    · exact both
    · rw [ok] at failed
      cases failed
  · obtain ⟨same, exactly, -⟩ := build_of_any_order circular
    have onwards : [⟨1⟩, ⟨2⟩].Perm (identifiers (Donors.ofStores ring)) := by decide +kernel
    have backwards : [⟨2⟩, ⟨1⟩].Perm (identifiers (Donors.ofStores ring)) := by decide +kernel
    have fails : (do
        let index ← buildInOrder (Donors.ofStores ring) [⟨1⟩, ⟨2⟩]
        return index.contents.size : Read Nat).result = .error (.shape (.cyclicDonor ⟨1⟩)) := by
      decide +kernel
    have none : ∀ index, (buildInOrder (Donors.ofStores ring) [⟨1⟩, ⟨2⟩]).result ≠ .ok index := by
      intro index ok
      rw [Read.result_bind_of_ok ok] at fails
      cases fails
    refine ⟨fun settled => ?_, ?_⟩
    · obtain ⟨index, ok⟩ := (exactly _ onwards).mpr settled
      exact none index ok
    · rcases same _ _ onwards backwards with ⟨left, right, ok, -⟩ | both
      · exact absurd ok (none left)
      · exact both

end DonorIndex

end VersionedTrees
