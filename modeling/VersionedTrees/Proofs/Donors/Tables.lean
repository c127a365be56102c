import VersionedTrees.Donors.Index
import VersionedTrees.Proofs.Donors.Forest

/-!
# Tables of digests

A table of digests tells of every node the digests of what it stands for, whether it refers to donors
or not (`Tabulates`), and so do the tables of all donors that an index has. Digests need not be had: a
reference may fail to resolve, and donors may refer to each other in a circle. So what is shown here is
shown of computations that succeed (`Assures`), and it is the same whether they read or edit.
-/

namespace VersionedTrees

variable {C : Type} [Content C]

/-! ## The digest of a subtree -/

/-- The keys of the trees of a forest with the digests of their subtrees. -/
def Forest.digests : Forest C → List (Key × Digest)
  | .nil => []
  | .cons key content below rest =>
    (key, Digest.of (subtreeBytes (Content.digest content) below.digests)) :: rest.digests

namespace Subtree

/-- The bytes that the digest of a subtree is made of. -/
def preimage (subtree : Subtree C) : List UInt8 :=
  subtreeBytes (Content.digest subtree.content) subtree.below.digests

/-- The digest of a subtree. -/
def digest (subtree : Subtree C) : Digest :=
  Digest.of subtree.preimage

end Subtree

/-- The digests of a node that stands for a subtree. -/
def Site.nodeDigest (site : Site C) (subtree : Subtree C) : NodeDigest :=
  ⟨Content.digest subtree.content, subtree.digest, site.payload?.any (!·.isReference),
    (site.store.plain? site.key).isSome⟩

/-- The digests of a node are those of what it stands for. -/
def Site.Digested (stores : List (Store C)) (site : Site C) (digest : NodeDigest) : Prop :=
  ∃ subtree, Describes stores site subtree ∧ digest = site.nodeDigest subtree

/-- The digests under some of the keys of a store are those of the nodes there. -/
def Digested (stores : List (Store C)) (store : Store C) (nodes : Std.TreeMap Key NodeDigest) : Prop :=
  ∀ key digest, nodes[key]? = some digest → Site.Digested stores ⟨store, key⟩ digest

/-- A table tells the keys of a store in pre-order and the digests of all nodes. -/
structure Tabulates (stores : List (Store C)) (store : Store C) (table : DigestTable) : Prop where
  order : table.order = store.rows.map Prod.fst
  digested : Digested stores store table.nodes
  complete : ∀ key, store.layout.Holds key → key ∈ table.nodes

/-- Another node's digests are added. -/
theorem Digested.insert {stores : List (Store C)} {store : Store C}
    {nodes : Std.TreeMap Key NodeDigest} {key : Key} {digest : NodeDigest}
    (digested : Digested stores store nodes) (new : Site.Digested stores ⟨store, key⟩ digest) :
    Digested stores store (nodes.insert key digest) := by
  intro other found there
  rw [Std.TreeMap.getElem?_insert] at there
  split at there
  · rename_i same
    obtain rfl := Std.compare_eq_iff_eq.mp same
    obtain rfl := Option.some.inj there
    exact new
  · exact digested other found there

/-- Every node stands for a subtree, and the table tells its digests. -/
theorem Tabulates.exists_describes {stores : List (Store C)} {store : Store C} {table : DigestTable}
    {key : Key} (tabulates : Tabulates stores store table) (holds : store.layout.Holds key) :
    ∃ subtree, Describes stores ⟨store, key⟩ subtree ∧
      table.nodes[key]? = some (Site.nodeDigest ⟨store, key⟩ subtree) := by
  obtain ⟨digest, there⟩ := Option.isSome_iff_exists.mp
    (Std.TreeMap.mem_iff_isSome_getElem?.mp (tabulates.complete key holds))
  obtain ⟨subtree, describes, rfl⟩ := tabulates.digested key digest there
  exact ⟨subtree, describes, there⟩

/-! ## Computations that succeed -/

/-- A way to say what holds of the value of a computation if it succeeds. -/
structure Assures (m : Type → Type) [Monad m] [MonadLiftT Read m] where
  assures : ∀ {α : Type}, m α → (α → Prop) → Prop
  pure : ∀ {α : Type} {value : α} {holds : α → Prop}, holds value → assures (pure value) holds
  bind : ∀ {α β : Type} {first : m α} {next : α → m β} {between : α → Prop} {holds : β → Prop},
    assures first between → (∀ value, between value → assures (next value) holds) →
      assures (first >>= next) holds
  lift : ∀ {α : Type} {read : Read α} {holds : α → Prop},
    (∀ value, read.result = .ok value → holds value) → assures (liftM read) holds
  mono : ∀ {α : Type} {computation : m α} {holds weaker : α → Prop},
    assures computation holds → (∀ value, holds value → weaker value) → assures computation weaker

/-- A read assures what holds of its result. -/
def Read.assures : Assures Read where
  assures read holds := ∀ value, read.result = .ok value → holds value
  pure there value ok := Except.ok.inj ok ▸ there
  bind first next value ok := by
    obtain ⟨given, told, onward⟩ := Read.result_bind_eq_ok ok
    exact next given (first given told) value onward
  lift there := there
  mono there weaken value ok := weaken value (there value ok)

/-- An edit assures what holds of its value, as long as it keeps an invariant. -/
def Edit.assures {σ : Type} (invariant : σ → Prop) : Assures (Edit σ) where
  assures edit holds := ∀ state, invariant state → ∀ value after,
    edit.effect state = (.ok value, after) → invariant after ∧ holds value
  pure there state kept value after ok := by
    cases ok
    exact ⟨kept, there⟩
  bind first next state kept value after ok := by
    obtain ⟨given, middle, told, onward⟩ := Edit.effect_bind_eq_ok ok
    obtain ⟨kept, there⟩ := first state kept given middle told
    exact next given there middle kept value after onward
  lift there state kept value after ok := by
    obtain ⟨told, rfl⟩ := Prod.mk.inj ok
    exact ⟨kept, there value told⟩
  mono there weaken state kept value after ok :=
    (there state kept value after ok).imp_right (weaken value)

/-! ## One table -/

section Table

variable {m : Type → Type} [Monad m] [MonadLiftT Read m] (way : Assures m)
  {stores : List (Store C)} {store : Store C} {references : Reference → m Digest}
  (wellFormed : store.WellFormed)
  (targets : ∀ reference, way.assures (references reference) fun digest =>
    ∃ target subtree, Donors.storeOf stores reference.tree = some target ∧
      Describes stores ⟨target, reference.key⟩ subtree ∧ digest = subtree.digest)

/-- The digests of children that a table has are those of the forest that the children stand for. -/
theorem exists_forest_of_children {nodes : Std.TreeMap Key NodeDigest} {keys : List Key}
    {digests : List (Key × NodeDigest)}
    (digested : Digested stores store nodes)
    (told : (DigestTable.childDigests nodes keys).result = .ok digests) :
    ∃ forest, Unfolds stores store keys forest ∧
      (digests.map fun child => (child.1, child.2.subtree)) = forest.digests ∧
      digests.all (·.2.isExplicit) = (Forest.gather store.plain? keys).isSome := by
  induction keys generalizing digests with
  | nil =>
      cases told
      exact ⟨.nil, trivial, rfl, rfl⟩
  | cons key keys inductionHypothesis =>
      rw [DigestTable.childDigests, List.mapM_cons] at told
      obtain ⟨first, found, told⟩ := Read.result_bind_eq_ok told
      obtain ⟨rest, later, told⟩ := Read.result_bind_eq_ok told
      cases told
      obtain ⟨digest, there, told⟩ := Read.result_bind_eq_ok found
      cases told
      obtain ⟨subtree, describes, rfl⟩ := digested key digest (Read.result_orFail_eq_ok_iff.mp there)
      obtain ⟨forest, unfolds, same, explicit⟩ := inductionHypothesis later
      refine ⟨.cons key subtree.content subtree.below forest,
        unfolds_cons_iff.mpr ⟨keys, rfl, describes, unfolds⟩, ?_, ?_⟩
      · rw [List.map_cons, same]
        rfl
      · rw [List.all_cons, explicit, Bool.eq_iff_iff, Bool.and_eq_true, Forest.isSome_gather_iff,
          Forest.isSome_gather_iff, List.forall_mem_cons]
        rfl

include wellFormed targets

/-- The digests of a node are those of what it stands for. -/
theorem assures_ofNode {key : Key} (holds : store.layout.Holds key)
    {nodes : Std.TreeMap Key NodeDigest} (digested : Digested stores store nodes) :
    way.assures (DigestTable.ofNode store.tree (Donors.ofStores stores) references nodes key)
      (Site.Digested stores ⟨store, key⟩) := by
  obtain ⟨standing, found⟩ := holds
  have there : Site.payload? ⟨store, key⟩ = some standing.payload := Store.payload?_of_layout found
  have read : (store.tree.payload key).result = .ok standing.payload :=
    Buffer.result_payload_of_found (Buffer.result_node_base found)
  have children := wellFormed.shows.result_children ⟨_, found⟩
  rw [DigestTable.ofNode]
  refine way.bind (way.lift fun payload ok => Except.ok.inj (read.symm.trans ok)) ?_
  rintro payload rfl
  refine way.bind (way.lift fun value ok => Donors.result_resolve_iff.mp ok) ?_
  intro value lent
  -- a node that is no tree-reference has the digests of its children below it
  have own : standing.payload.isTreeReference = false → way.assures (do
      let children ← (store.tree.children key : Read (List Key))
      let digests ← (DigestTable.childDigests nodes children : Read (List (Key × NodeDigest)))
      let subtree := subtreeBytes (Content.digest value)
        (digests.map fun child => (child.1, child.2.subtree))
      let isLocal := !standing.payload.isReference
      return ⟨Content.digest value, Digest.of subtree, isLocal,
        isLocal && digests.all (·.2.isExplicit)⟩) (Site.Digested stores ⟨store, key⟩) := by
    intro notReference
    refine way.bind (way.lift fun keys ok => Except.ok.inj (children.symm.trans ok)) ?_
    rintro keys rfl
    refine way.bind (way.lift fun digests ok => exists_forest_of_children digested ok) ?_
    rintro digests ⟨forest, unfolds, same, explicit⟩
    have site : Describes stores ⟨store, key⟩ ⟨value, forest⟩ ↔ _ :=
      describes_of_not_isTreeReference there notReference
    refine way.pure ⟨⟨value, forest⟩, site.mpr ⟨lent, unfolds⟩, ?_⟩
    rw [same, explicit, ← wellFormed.isSome_plain? found, Site.nodeDigest, there]
    rfl
  cases payload : standing.payload with
  | content other =>
      rw [payload] at own
      exact own rfl
  | nodeReference reference =>
      rw [payload] at own
      exact own rfl
  | treeReference reference =>
      rw [payload] at lent there
      refine way.bind (targets reference) ?_
      rintro digest ⟨target, subtree, reached, describes, rfl⟩
      obtain ⟨_, reached', held⟩ := (Donors.lent_eq_some_iff rfl).mp lent
      obtain rfl := Option.some.inj (reached.symm.trans reached')
      obtain rfl : value = subtree.content := Option.some.inj (describes.lent held)
      refine way.pure ⟨subtree, (describes_of_treeReference there).mpr
        ⟨target, reached, held, describes⟩, ?_⟩
      rw [Site.nodeDigest, wellFormed.isSome_plain? found, payload, there]
      rfl

/-- The digests of keys are added one after the other. -/
theorem assures_addAll {keys : List Key} (holds : ∀ key ∈ keys, store.layout.Holds key)
    {nodes : Std.TreeMap Key NodeDigest} (digested : Digested stores store nodes) :
    way.assures (DigestTable.addAll store.tree (Donors.ofStores stores) references keys nodes)
      fun after => Digested stores store after ∧
        ∀ key, key ∈ keys ∨ key ∈ nodes → key ∈ after := by
  induction keys generalizing nodes with
  | nil => exact way.pure ⟨digested, fun key inside => inside.resolve_left List.not_mem_nil⟩
  | cons key keys inductionHypothesis =>
      refine way.bind (assures_ofNode way wellFormed targets (holds key List.mem_cons_self) digested) ?_
      intro digest new
      refine way.mono (inductionHypothesis
        (fun other inside => holds other (List.mem_cons_of_mem _ inside)) (digested.insert new)) ?_
      rintro after ⟨digested, complete⟩
      refine ⟨digested, fun other inside => complete other ?_⟩
      rw [Std.TreeMap.mem_insert, Std.compare_eq_iff_eq]
      rcases inside with inside | there
      · rcases List.mem_cons.mp inside with rfl | later
        · exact .inr (.inl rfl)
        · exact .inl later
      · exact .inr (.inr there)

/-- A table of digests that a store has tells the digests of all nodes. -/
theorem assures_ofTree :
    way.assures (DigestTable.ofTree store.tree (Donors.ofStores stores) references)
      (Tabulates stores store) := by
  refine way.bind (way.lift fun order ok => Except.ok.inj (wellFormed.result_keys.symm.trans ok)) ?_
  rintro order rfl
  have holds : ∀ key ∈ (store.rows.map Prod.fst).reverse, store.layout.Holds key :=
    fun key inside => wellFormed.mem_map_rows_iff.mp (List.mem_reverse.mp inside)
  have empty : Digested stores store ∅ := fun key digest there => by simp at there
  refine way.bind (assures_addAll way wellFormed targets holds empty) ?_
  rintro nodes ⟨digested, complete⟩
  exact way.pure ⟨rfl, digested, fun key holds =>
    complete key (.inl (List.mem_reverse.mpr (wellFormed.mem_map_rows_iff.mpr holds)))⟩

end Table

/-! ## The tables of all donors -/

namespace DonorIndex

variable {donors : Donors C} {stores : List (Store C)} {digests after : DonorDigests} {id : TreeId}
  {levels : Nat} {waiting : List TreeId}

/-- The digest of the target of a reference, once the digests of its donor are computed. -/
def targetDigest (donors : Donors C) (levels : Nat) (waiting : List TreeId) (reference : Reference) :
    Edit DonorDigests Digest := do
  computeDigests donors levels waiting reference.tree
  computedDigest reference

/-- The digest of a target that is had is told by the table of its donor, which is there then. -/
theorem targetDigest_eq_ok {reference : Reference} {digest : Digest}
    (ok : (targetDigest donors levels waiting reference).effect digests = (.ok digest, after)) :
    (computeDigests donors levels waiting reference.tree).effect digests = (.ok (), after) ∧
      ∃ table, after[reference.tree]? = some table ∧ (table.target reference).result = .ok digest := by
  obtain ⟨⟨⟩, middle, computed, ok⟩ := Edit.effect_bind_eq_ok ok
  rw [computedDigest, Edit.effect_current_bind] at ok
  obtain ⟨table, found, ok⟩ := Edit.effect_liftM_bind_eq_ok ok
  obtain ⟨told, rfl⟩ := Prod.mk.inj ok
  exact ⟨computed, table, Read.result_orFail_eq_ok_iff.mp found, told⟩

/-- A donor whose digests are computed had them before, or it counts and its table is added. -/
theorem computeDigests_eq_ok
    (ok : (computeDigests (Donors.ofStores stores) (levels + 1) waiting id).effect digests =
      (.ok (), after)) :
    after = digests ∧ id ∈ digests ∨
      ∃ store table middle, Donors.storeOf stores id = some store ∧
        (DigestTable.ofTree store.tree (Donors.ofStores stores)
          (targetDigest (Donors.ofStores stores) levels (id :: waiting))).effect digests =
            (.ok table, middle) ∧ after = middle.insert id table := by
  rw [computeDigests, Edit.effect_current_bind] at ok
  split at ok
  · rename_i contained
    obtain ⟨-, rfl⟩ := Prod.mk.inj ok
    exact .inl ⟨rfl, Std.TreeMap.contains_iff_mem.mp contained⟩
  split at ok
  · cases ok
  obtain ⟨donor, found, ok⟩ := Edit.effect_liftM_bind_eq_ok ok
  obtain ⟨table, middle, told, ok⟩ := Edit.effect_bind_eq_ok ok
  obtain ⟨-, rfl⟩ := Prod.mk.inj ok
  rw [Donors.find_ofStores, Read.result_orFail_eq_ok_iff, Option.map_eq_some_iff] at found
  obtain ⟨store, counts, rfl⟩ := found
  exact .inr ⟨store, table, middle, counts, told, rfl⟩

end DonorIndex

/-- The digests that have been computed are those of the donors, and some donors have theirs. -/
structure Computed (stores : List (Store C)) (present : List TreeId) (digests : DonorDigests) :
    Prop where
  tabulated : ∀ id table, digests[id]? = some table →
    ∃ store, Donors.storeOf stores id = some store ∧ Tabulates stores store table
  there : ∀ id ∈ present, id ∈ digests

namespace Computed

variable {stores : List (Store C)} {present : List TreeId} {digests after : DonorDigests}
  {id : TreeId} {levels : Nat} {waiting : List TreeId}

theorem empty (stores : List (Store C)) : Computed stores [] ∅ where
  tabulated id table found := by simp at found
  there _ impossible := absurd impossible List.not_mem_nil

theorem of_subset {fewer : List TreeId} (computed : Computed stores present digests)
    (subset : ∀ id ∈ fewer, id ∈ present) : Computed stores fewer digests :=
  ⟨computed.tabulated, fun id inside => computed.there id (subset id inside)⟩

/-- A donor that has its digests counts, and they are in a table of it. -/
theorem exists_table (computed : Computed stores present digests) (inside : id ∈ present) :
    ∃ store table, digests[id]? = some table ∧ Donors.storeOf stores id = some store ∧
      Tabulates stores store table := by
  obtain ⟨table, found⟩ := Option.isSome_iff_exists.mp
    (Std.TreeMap.mem_iff_isSome_getElem?.mp (computed.there id inside))
  obtain ⟨store, counts, tabulates⟩ := computed.tabulated id table found
  exact ⟨store, table, found, counts, tabulates⟩

/-- A donor gets its digests. -/
theorem insert {store : Store C} {table : DigestTable} (computed : Computed stores present digests)
    (found : Donors.storeOf stores id = some store) (tabulates : Tabulates stores store table) :
    Computed stores (id :: present) (digests.insert id table) where
  tabulated other table' there := by
    rw [Std.TreeMap.getElem?_insert] at there
    split at there
    · rename_i same
      obtain rfl := Std.compare_eq_iff_eq.mp same
      obtain rfl := Option.some.inj there
      exact ⟨store, found, tabulates⟩
    · exact computed.tabulated other table' there
  there other inside := by
    rw [Std.TreeMap.mem_insert, Std.compare_eq_iff_eq]
    rcases List.mem_cons.mp inside with rfl | inside
    · exact .inl rfl
    · exact .inr (computed.there other inside)

/-- The digest of a target is that of the subtree that the target stands for. -/
theorem of_target {reference : Reference} {table : DigestTable} {digest : Digest}
    (computed : Computed stores present digests) (found : digests[reference.tree]? = some table)
    (told : (table.target reference).result = .ok digest) :
    ∃ target subtree, Donors.storeOf stores reference.tree = some target ∧
      Describes stores ⟨target, reference.key⟩ subtree ∧ digest = subtree.digest := by
  obtain ⟨target, reached, tabulates⟩ := computed.tabulated _ _ found
  obtain ⟨nodeDigest, there, told⟩ := Read.result_bind_eq_ok told
  obtain ⟨subtree, describes, rfl⟩ :=
    tabulates.digested _ _ (Read.result_orFail_eq_ok_iff.mp there)
  exact ⟨target, subtree, reached, describes, (Except.ok.inj told).symm⟩

/-- The digests of the targets of references are told, if the donors that are referred to get theirs. -/
theorem assures_target (lower : ∀ id digests after, Computed stores present digests →
      (DonorIndex.computeDigests (Donors.ofStores stores) levels waiting id).effect digests =
        (.ok (), after) → Computed stores (id :: present) after) (reference : Reference) :
    (Edit.assures (Computed stores present)).assures
      (DonorIndex.targetDigest (Donors.ofStores stores) levels waiting reference) fun digest =>
        ∃ target subtree, Donors.storeOf stores reference.tree = some target ∧
          Describes stores ⟨target, reference.key⟩ subtree ∧ digest = subtree.digest := by
  intro digests computed digest after ok
  obtain ⟨first, table, found, told⟩ := DonorIndex.targetDigest_eq_ok ok
  have fewer := (lower _ _ _ computed first).of_subset fun other inside =>
    List.mem_cons_of_mem reference.tree inside
  exact ⟨fewer, fewer.of_target found told⟩

section Computing

variable (wellFormed : ∀ store ∈ stores, store.WellFormed)
include wellFormed

/-- The digests of a donor are computed, after those of the donors that it refers to. -/
theorem of_computeDigests (computed : Computed stores present digests)
    (ok : (DonorIndex.computeDigests (Donors.ofStores stores) levels waiting id).effect digests =
      (.ok (), after)) : Computed stores (id :: present) after := by
  induction levels generalizing present digests id waiting after with
  | zero => cases ok
  | succ levels inductionHypothesis =>
      rcases DonorIndex.computeDigests_eq_ok ok with
        ⟨rfl, inside⟩ | ⟨store, table, middle, counts, told, rfl⟩
      · refine ⟨computed.tabulated, fun other listed => ?_⟩
        rcases List.mem_cons.mp listed with rfl | listed
        · exact inside
        · exact computed.there other listed
      · have lowered : ∀ other digests after, Computed stores present digests →
            (DonorIndex.computeDigests (Donors.ofStores stores) levels (id :: waiting) other).effect
              digests = (.ok (), after) → Computed stores (other :: present) after :=
          fun other digests after computed lower => inductionHypothesis computed lower
        obtain ⟨computed, tabulates⟩ := assures_ofTree _
          (wellFormed store (Donors.mem_of_storeOf counts)) (assures_target lowered) digests computed
            table middle told
        exact computed.insert counts tabulates

/-- The digests of several donors are computed one after the other. -/
theorem of_forM {order : List TreeId} (computed : Computed stores present digests)
    (ok : (order.forM (DonorIndex.computeDigests (Donors.ofStores stores) levels waiting)).effect
      digests = (.ok ⟨⟩, after)) : Computed stores (order ++ present) after := by
  induction order generalizing present digests with
  | nil =>
      obtain ⟨-, rfl⟩ := Prod.mk.inj ok
      exact computed
  | cons id order inductionHypothesis =>
      obtain ⟨⟨⟩, middle, first, rest⟩ := Edit.effect_bind_eq_ok ok
      refine (inductionHypothesis (of_computeDigests wellFormed computed first) rest).of_subset ?_
      intro other inside
      simpa [or_left_comm] using inside

end Computing

end Computed

end VersionedTrees
