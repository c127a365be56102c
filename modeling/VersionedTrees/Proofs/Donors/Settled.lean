import Mathlib.Data.List.Perm.Subperm
import Mathlib.Logic.Relation
import VersionedTrees.Proofs.Donors.Matches

/-!
# Settled donors

Donors may refer to each other, and the digests of a donor are computed after those of the donors that
it refers to. That can be done exactly if every payload resolves in one step and no donor needs itself
in the end (`Donors.Settled`), from whatever donor on.

Donors wait for each other while their digests are computed, each of them once, so there are no more
waiting than there are donors (`DonorIndex.Waits`). A computation with more levels than donors never runs
out of levels (`DonorIndex.computeDigests_eq`): a failure is an unresolved payload or a circle.
-/

namespace VersionedTrees

variable {C : Type}

namespace Donors

/-- A node of a donor is a tree-reference into another donor, or into the donor itself. -/
def Refers (stores : List (Store C)) (source target : TreeId) : Prop :=
  ∃ store key above reference, storeOf stores source = some store ∧
    store.layout key = some ⟨above, .treeReference reference⟩ ∧ reference.tree = target

/-- The tree-references from a donor into donors, and from those again, lead to an end. -/
def Ends (stores : List (Store C)) (id : TreeId) : Prop :=
  Acc (fun target source => Refers stores source target) id

/-- The payloads of the donors that count resolve in one step, and no donor refers to itself, be it by
way of other donors. -/
structure Settled (stores : List (Store C)) : Prop where
  lends : ∀ store ∈ counted stores, ∀ key standing, store.layout key = some standing →
    ∃ value, lent stores standing.payload = some value
  acyclic : ∀ id, ¬ Relation.TransGen (Refers stores) id id

variable {stores : List (Store C)} {store : Store C} {id : TreeId}

theorem mem_identifiers_iff :
    id ∈ DonorIndex.identifiers (ofStores stores) ↔ ∃ store, storeOf stores id = some store := by
  rw [DonorIndex.identifiers, List.mem_eraseDups, ofStores, List.map_map, List.mem_map, storeOf,
    ← Option.isSome_iff_exists, List.find?_isSome]
  simp only [beq_iff_eq]
  exact Iff.rfl

/-- A donor from which the references lead to an end does not refer to itself. -/
theorem Ends.not_circular (ends : Ends stores id) : ¬ Relation.TransGen (Refers stores) id id := by
  induction ends with
  | intro id _ inductionHypothesis =>
      intro circle
      obtain ⟨next, refers, back⟩ := Relation.TransGen.head'_iff.mp circle
      exact inductionHypothesis next refers (Relation.TransGen.tail' back refers)

end Donors

/-! ## Edits that succeed -/

namespace Edit

variable {σ α β : Type} {invariant : σ → Prop}

/-- An edit succeeds from every state with a property. -/
def Completes (invariant : σ → Prop) (edit : Edit σ α) : Prop :=
  ∀ state, invariant state → ∃ value after, edit.effect state = (.ok value, after)

theorem completes_pure (value : α) : Completes invariant (pure value : Edit σ α) :=
  fun state _ => ⟨value, state, rfl⟩

/-- What follows needs to succeed only where the first edit leads. -/
theorem Completes.bind {first : Edit σ α} {next : α → Edit σ β} {between : α → Prop}
    (completes : Completes invariant first)
    (assured : (Edit.assures invariant).assures first between)
    (rest : ∀ value, between value → Completes invariant (next value)) :
    Completes invariant (first >>= next) := by
  intro state kept
  obtain ⟨value, middle, done⟩ := completes state kept
  obtain ⟨kept, there⟩ := assured state kept value middle done
  rw [effect_bind_of_ok done]
  exact rest value there middle kept

/-- Edits of a list of items succeed one after the other. -/
theorem completes_forM {edit : α → Edit σ PUnit} {items : List α}
    (completes : ∀ item ∈ items, Completes invariant (edit item))
    (assured : ∀ item, (Edit.assures invariant).assures (edit item) fun _ => True) :
    Completes invariant (items.forM edit) := by
  induction items with
  | nil => exact completes_pure _
  | cons item items inductionHypothesis =>
      rw [List.forall_mem_cons] at completes
      exact completes.1.bind (assured item) fun _ _ => inductionHypothesis completes.2

end Edit

/-! ## What a table asks for -/

section Asking

variable [Content C] {m : Type → Type} [Monad m] [MonadLiftT Read m] (way : Assures m)
  {store : Store C} {donors : Donors C} {references : Reference → m Digest}
  {asked : Reference → Prop}
  (asks : ∀ reference, way.assures (references reference) fun _ => asked reference)

include asks

/-- The digests of a tree-reference are not had without asking for its target. -/
theorem asks_ofNode (nodes : Std.TreeMap Key NodeDigest) (key : Key) :
    way.assures (DigestTable.ofNode store.tree donors references nodes key) fun _ =>
      ∀ above reference, store.layout key = some ⟨above, .treeReference reference⟩ →
        asked reference := by
  rw [DigestTable.ofNode]
  refine way.bind (way.lift fun payload ok => ok) ?_
  intro payload read
  have held : ∀ above other, store.layout key = some ⟨above, other⟩ → payload = other := by
    intro above other found
    have found' := Buffer.result_payload_of_found (Buffer.result_node_base found)
    exact Except.ok.inj (read.symm.trans found')
  refine way.bind (way.lift fun _ _ => trivial) ?_
  intro value _
  cases payload with
  | treeReference reference =>
      refine way.bind (asks reference) ?_
      intro digest there
      refine way.pure fun above other found => ?_
      cases held above _ found
      exact there
  | content _ | nodeReference _ =>
      refine way.bind (way.lift fun _ _ => trivial) fun _ _ => ?_
      refine way.bind (way.lift fun _ _ => trivial) fun _ _ => ?_
      exact way.pure fun above other found => by cases held above _ found

theorem asks_addAll (keys : List Key) (nodes : Std.TreeMap Key NodeDigest) :
    way.assures (DigestTable.addAll store.tree donors references keys nodes) fun _ =>
      ∀ key ∈ keys, ∀ above reference,
        store.layout key = some ⟨above, .treeReference reference⟩ → asked reference := by
  induction keys generalizing nodes with
  | nil => exact way.pure fun key impossible => absurd impossible List.not_mem_nil
  | cons key keys inductionHypothesis =>
      refine way.bind (asks_ofNode way asks nodes key) ?_
      intro digest first
      refine way.mono (inductionHypothesis _) ?_
      intro after rest
      exact List.forall_mem_cons.mpr ⟨first, rest⟩

/-- The digests of a tree are not had without asking for the targets of all its tree-references. -/
theorem asks_ofTree (wellFormed : store.WellFormed) :
    way.assures (DigestTable.ofTree store.tree donors references) fun _ =>
      ∀ key above reference, store.layout key = some ⟨above, .treeReference reference⟩ →
        asked reference := by
  refine way.bind (way.lift fun order ok => Except.ok.inj (wellFormed.result_keys.symm.trans ok)) ?_
  rintro order rfl
  refine way.bind (asks_addAll way asks _ _) ?_
  intro nodes all
  refine way.pure fun key above reference found => ?_
  have listed := wellFormed.mem_map_rows_iff.mpr ⟨_, found⟩
  exact all key (List.mem_reverse.mpr listed) above reference found

end Asking

/-! ## Tables that can be computed -/

/-- The digests of children are had if a table has all of them. -/
theorem exists_childDigests {nodes : Std.TreeMap Key NodeDigest} {keys : List Key}
    (inside : ∀ key ∈ keys, key ∈ nodes) :
    ∃ digests, (DigestTable.childDigests nodes keys).result = .ok digests := by
  induction keys with
  | nil => exact ⟨[], rfl⟩
  | cons key keys inductionHypothesis =>
      rw [List.forall_mem_cons] at inside
      obtain ⟨digest, there⟩ :=
        Option.isSome_iff_exists.mp (Std.TreeMap.mem_iff_isSome_getElem?.mp inside.1)
      obtain ⟨digests, ok⟩ := inductionHypothesis inside.2
      refine ⟨(key, digest) :: digests, ?_⟩
      have first : (do return (key, ← Read.orFail (.nodeNotFound key) nodes[key]?) :
          Read (Key × NodeDigest)).result = .ok (key, digest) := by
        rw [there]
        rfl
      rw [DigestTable.childDigests, List.mapM_cons, Read.result_bind_of_ok first]
      exact Read.result_bind_of_ok ok

/-- A way to say that a computation succeeds, beside what holds of its value. -/
structure Completing (m : Type → Type) [Monad m] [MonadLiftT Read m] extends Assures m where
  completes : ∀ {α : Type}, m α → Prop
  completes_pure : ∀ {α : Type} (value : α), completes (Pure.pure value)
  completes_bind : ∀ {α β : Type} {first : m α} {next : α → m β} {between : α → Prop},
    completes first → assures first between → (∀ value, between value → completes (next value)) →
      completes (first >>= next)
  completes_lift : ∀ {α : Type} {read : Read α} {value : α}, read.result = .ok value →
    completes (liftM read)

/-- A read completes if it has a result. -/
def Read.completing : Completing Read where
  toAssures := Read.assures
  completes read := ∃ value, read.result = .ok value
  completes_pure value := ⟨value, rfl⟩
  completes_bind first assured rest :=
    let ⟨value, ok⟩ := first
    let ⟨last, ok'⟩ := rest value (assured value ok)
    ⟨last, (Read.result_bind_of_ok ok).trans ok'⟩
  completes_lift ok := ⟨_, ok⟩

/-- An edit completes from the states with a property that it keeps. -/
def Edit.completing {σ : Type} (invariant : σ → Prop) : Completing (Edit σ) where
  toAssures := Edit.assures invariant
  completes := Edit.Completes invariant
  completes_pure := Edit.completes_pure
  completes_bind := Edit.Completes.bind
  completes_lift ok state _ := ⟨_, state, Prod.ext ok rfl⟩

section Table

variable [Content C] {m : Type → Type} [Monad m] [MonadLiftT Read m] (way : Completing m)
  {stores : List (Store C)} {store : Store C} {references : Reference → m Digest}
  (wellFormed : store.WellFormed)
  (lends : ∀ key standing, store.layout key = some standing →
    ∃ value, Donors.lent stores standing.payload = some value)
  (answers : ∀ key above reference, store.layout key = some ⟨above, .treeReference reference⟩ →
    way.completes (references reference))
  (targets : ∀ reference, way.assures (references reference) fun digest =>
    ∃ target subtree, Donors.storeOf stores reference.tree = some target ∧
      Describes stores ⟨target, reference.key⟩ subtree ∧ digest = subtree.digest)

/-- What follows a read is to complete with the result of the read. -/
theorem Completing.completes_lift_bind {α β : Type} {read : Read α} {next : α → m β} {value : α}
    (ok : read.result = .ok value) (rest : way.completes (next value)) :
    way.completes (liftM read >>= next) := by
  have told : way.assures (liftM read : m α) (· = value) :=
    way.lift fun other ok' => Except.ok.inj (ok'.symm.trans ok)
  refine way.completes_bind (way.completes_lift ok) told ?_
  rintro value rfl
  exact rest

include wellFormed lends answers targets

/-- The digests of a node can be computed once those of its children are there. -/
theorem completes_ofNode {key : Key} {nodes : Std.TreeMap Key NodeDigest}
    (holds : store.layout.Holds key) (below : ∀ child ∈ store.tree.childList key, child ∈ nodes) :
    way.completes (DigestTable.ofNode store.tree (Donors.ofStores stores) references nodes key) := by
  obtain ⟨⟨above, payload⟩, found⟩ := holds
  obtain ⟨value, lent⟩ := lends key _ found
  have read := Buffer.result_payload_of_found (Buffer.result_node_base found)
  rw [DigestTable.ofNode]
  refine way.completes_lift_bind read ?_
  refine way.completes_lift_bind (Donors.result_resolve_iff.mpr lent) ?_
  cases payload with
  | treeReference reference =>
      exact way.completes_bind (answers key above reference found) (targets reference)
        fun digest _ => way.completes_pure _
  | content _ | nodeReference _ =>
      obtain ⟨digests, told⟩ := exists_childDigests below
      refine way.completes_lift_bind (wellFormed.shows.result_children ⟨_, found⟩) ?_
      exact way.completes_lift_bind told (way.completes_pure _)

/-- The digests of keys can be computed if every key comes after its children. -/
theorem completes_addAll {before : Key → Prop} {keys : List Key}
    (below : BelowFirst store.tree.childList before keys)
    (holds : ∀ key ∈ keys, store.layout.Holds key) {nodes : Std.TreeMap Key NodeDigest}
    (there : ∀ key, before key → key ∈ nodes) (digested : Digested stores store nodes) :
    way.completes (DigestTable.addAll store.tree (Donors.ofStores stores) references keys nodes) := by
  induction keys generalizing before nodes with
  | nil => exact way.completes_pure _
  | cons key keys inductionHypothesis =>
      rw [List.forall_mem_cons] at holds
      have first := completes_ofNode way wellFormed lends answers targets holds.1
        fun child inside => there child (below.1 child inside)
      refine way.completes_bind first (assures_ofNode _ wellFormed targets holds.1 digested) ?_
      intro digest new
      refine inductionHypothesis below.2 holds.2 ?_ (digested.insert new)
      intro other earlier
      rw [Std.TreeMap.mem_insert, Std.compare_eq_iff_eq]
      exact earlier.imp Eq.symm (there other)

/-- The digests of a tree can be computed if its payloads resolve and its references are answered. -/
theorem completes_ofTree :
    way.completes (DigestTable.ofTree store.tree (Donors.ofStores stores) references) := by
  have holds : ∀ key ∈ (store.rows.map Prod.fst).reverse, store.layout.Holds key :=
    fun key inside => wellFormed.mem_map_rows_iff.mp (List.mem_reverse.mp inside)
  have empty : Digested stores store ∅ := fun key digest there => by simp at there
  refine way.completes_lift_bind wellFormed.result_keys ?_
  refine way.completes_bind ?_ (assures_addAll _ wellFormed targets holds empty)
    fun _ _ => way.completes_pure _
  exact completes_addAll way wellFormed lends answers targets wellFormed.belowFirst_rows holds
    (fun _ impossible => impossible.elim) empty

end Table

/-! ## The digests of all donors -/

namespace DonorIndex

section Levels

variable {donors : Donors C} {donor : Tree C} {levels more : Nat} {waiting : List TreeId}
  {id : TreeId}

/-- Donors whose digests wait for those of another are different from each other. -/
structure Waits (donors : Donors C) (waiting : List TreeId) : Prop where
  nodup : waiting.Nodup
  among : waiting ⊆ donors.trees.map (·.id)

theorem Waits.nil (donors : Donors C) : Waits donors [] :=
  ⟨List.nodup_nil, List.nil_subset _⟩

/-- There are no more donors that wait than donors. -/
theorem Waits.length_le (waits : Waits donors waiting) : waiting.length ≤ donors.trees.length := by
  have fits := (waits.nodup.subperm waits.among).length_le
  rwa [List.length_map] at fits

/-- A donor that does not wait yet waits for those that it refers to. -/
theorem Waits.cons (waits : Waits donors waiting) (new : id ∉ waiting)
    (found : (donors.find id).result = .ok donor) : Waits donors (id :: waiting) := by
  rw [Donors.find, Read.result_orFail_eq_ok_iff] at found
  have same := List.find?_some found
  obtain rfl := eq_of_beq same
  refine ⟨List.nodup_cons.mpr ⟨new, waits.nodup⟩, List.cons_subset.mpr ⟨?_, waits.among⟩⟩
  exact List.mem_map.mpr ⟨donor, List.mem_of_find?_eq_some found, rfl⟩

/-- More levels than there are donors left to wait change nothing. -/
theorem computeDigests_eq [Content C] (waits : Waits donors waiting)
    (enough : donors.trees.length < levels + waiting.length) (le : levels ≤ more) :
    computeDigests donors more waiting id = computeDigests donors levels waiting id := by
  induction levels generalizing more waiting id with
  | zero =>
      have fits := waits.length_le
      omega
  | succ levels inductionHypothesis =>
      obtain ⟨more, rfl⟩ : ∃ rest, more = rest + 1 := ⟨more - 1, by omega⟩
      rw [computeDigests, computeDigests]
      by_cases new : id ∈ waiting
      · simp only [if_pos new]
      cases found : donors.trees.find? (·.id == id) with
      | none =>
          have refused : donors.find id = Read.fail (.treeUnavailable id) := by
            rw [Donors.find, found]
            rfl
          rw [refused]
          rfl
      | some donor =>
          have waits' := waits.cons new (Read.result_orFail_eq_ok_iff.mpr found)
          have lower : ∀ reference : Reference,
              computeDigests donors more (id :: waiting) reference.tree =
                computeDigests donors levels (id :: waiting) reference.tree := by
            intro reference
            refine inductionHypothesis waits' ?_ (Nat.le_of_succ_le_succ le)
            rw [List.length_cons]
            omega
          simp only [lower]

end Levels

/-- The digest of what a reference points at is in the table of its donor, if that has its digests and the
reference stands for something. -/
theorem exists_targetDigest [Content C] {stores : List (Store C)} {present : List TreeId}
    {digests : DonorDigests} {reference : Reference} {value : C}
    (computed : Computed stores present digests) (inside : reference.tree ∈ present)
    (lent : Donors.lent stores (.treeReference reference) = some value) :
    ∃ table digest, digests[reference.tree]? = some table ∧
      (table.target reference).result = .ok digest := by
  obtain ⟨target, reached, held⟩ := (Donors.lent_eq_some_iff rfl).mp lent
  obtain ⟨target', table, found, reached', tabulates⟩ := computed.exists_table inside
  obtain rfl := Option.some.inj (reached.symm.trans reached')
  obtain ⟨subtree, -, told⟩ := tabulates.exists_describes (Store.holds_of_payload? held)
  exact ⟨table, _, found, Read.result_bind_of_ok (Read.result_orFail_eq_ok_iff.mpr told)⟩

section Computing

variable [Content C] {stores : List (Store C)} {store : Store C} {levels : Nat}
  {waiting order : List TreeId} {id : TreeId} {digests after : DonorDigests}
  {index : DonorIndex} (wellFormed : ∀ store ∈ stores, store.WellFormed)

include wellFormed

/-- Once the digests of a donor are computed, the references from it lead to an end. -/
theorem ends_of_computeDigests (ends : ∀ other ∈ digests, Donors.Ends stores other)
    (ok : (computeDigests (Donors.ofStores stores) levels waiting id).effect digests =
      (.ok (), after)) :
    (∀ other ∈ after, Donors.Ends stores other) ∧ Donors.Ends stores id := by
  induction levels generalizing digests id waiting after with
  | zero => cases ok
  | succ levels inductionHypothesis =>
      rcases computeDigests_eq_ok ok with ⟨rfl, inside⟩ | ⟨store, table, middle, counts, told, rfl⟩
      · exact ⟨ends, ends id inside⟩
      · have asks : ∀ reference, (Edit.assures fun digests : DonorDigests =>
            ∀ other ∈ digests, Donors.Ends stores other).assures
              (targetDigest (Donors.ofStores stores) levels (id :: waiting) reference) fun _ =>
                Donors.Ends stores reference.tree := fun reference digests ends digest after ok =>
          inductionHypothesis ends (targetDigest_eq_ok ok).1
        obtain ⟨ends, asked⟩ := asks_ofTree _ asks
          (wellFormed store (Donors.mem_of_storeOf counts)) digests ends table middle told
        have here : Donors.Ends stores id := by
          refine Acc.intro id ?_
          rintro target ⟨store', key, above, reference, counts', there, rfl⟩
          obtain rfl := Option.some.inj (counts.symm.trans counts')
          exact asked key above reference there
        refine ⟨fun other inside => ?_, here⟩
        rcases Std.TreeMap.mem_insert.mp inside with same | inside
        · obtain rfl := Std.compare_eq_iff_eq.mp same
          exact here
        · exact ends other inside

/-- The same for the donors of a list, whose digests are computed one after the other. -/
theorem ends_of_forM (ends : ∀ other ∈ digests, Donors.Ends stores other)
    (ok : (order.forM (computeDigests (Donors.ofStores stores) levels waiting)).effect digests =
      (.ok ⟨⟩, after)) :
    ∀ id ∈ order, Donors.Ends stores id := by
  induction order generalizing digests with
  | nil => exact fun id impossible => absurd impossible List.not_mem_nil
  | cons id order inductionHypothesis =>
      obtain ⟨⟨⟩, middle, first, rest⟩ := Edit.effect_bind_eq_ok ok
      obtain ⟨ends, here⟩ := ends_of_computeDigests wellFormed ends first
      exact List.forall_mem_cons.mpr ⟨here, inductionHypothesis ends rest⟩

/-- If donors are settled, the digests of any of them can be computed, as long as there are levels for
all donors that do not wait, and those that wait refer to it. -/
theorem completes_computeDigests (settled : Donors.Settled stores)
    (counts : Donors.storeOf stores id = some store) (waits : Waits (Donors.ofStores stores) waiting)
    (leads : ∀ other ∈ waiting, Relation.TransGen (Donors.Refers stores) other id)
    (enough : (Donors.ofStores stores).trees.length < levels + waiting.length) :
    Edit.Completes (Computed stores [])
      (computeDigests (Donors.ofStores stores) levels waiting id) := by
  induction levels generalizing id store waiting with
  | zero =>
      have fits := waits.length_le
      omega
  | succ levels inductionHypothesis =>
      intro digests computed
      rw [computeDigests, Edit.effect_current_bind]
      split
      · exact ⟨(), digests, rfl⟩
      have new : id ∉ waiting := fun inside => settled.acyclic id (leads id inside)
      rw [if_neg new]
      have found : ((Donors.ofStores stores).find id).result = .ok store.tree := by
        rw [Donors.find_ofStores, counts]
        rfl
      rw [Edit.effect_liftM_bind found]
      have wellFormed' := wellFormed store (Donors.mem_of_storeOf counts)
      have lends := settled.lends store
        (Donors.mem_counted_iff.mpr (Donors.id_of_storeOf counts ▸ counts))
      have lower : ∀ other digests after, Computed stores [] digests →
          (computeDigests (Donors.ofStores stores) levels (id :: waiting) other).effect digests =
            (.ok (), after) → Computed stores [other] after :=
        fun other digests after computed ok => Computed.of_computeDigests wellFormed computed ok
      have targets := Computed.assures_target lower
      have answers : ∀ key above reference,
          store.layout key = some ⟨above, .treeReference reference⟩ →
          Edit.Completes (Computed stores [])
            (targetDigest (Donors.ofStores stores) levels (id :: waiting) reference) := by
        intro key above reference there digests computed
        obtain ⟨value, lent⟩ := lends key _ there
        obtain ⟨target, reached, -⟩ := (Donors.lent_eq_some_iff rfl).mp lent
        have refers : Donors.Refers stores id reference.tree :=
          ⟨store, key, above, reference, counts, there, rfl⟩
        have leads' : ∀ other ∈ id :: waiting,
            Relation.TransGen (Donors.Refers stores) other reference.tree :=
          List.forall_mem_cons.mpr ⟨.single refers, fun other inside =>
            (leads other inside).tail refers⟩
        have enough' : (Donors.ofStores stores).trees.length <
            levels + (id :: waiting).length := by
          rw [List.length_cons]
          omega
        obtain ⟨⟨⟩, middle, done⟩ := inductionHypothesis reached (waits.cons new found) leads'
          enough' digests computed
        obtain ⟨table, digest, listed, told⟩ := exists_targetDigest (lower _ _ _ computed done)
          List.mem_cons_self lent
        refine ⟨digest, middle, (Edit.effect_bind_of_ok done).trans ?_⟩
        rw [computedDigest, Edit.effect_current_bind,
          Edit.effect_liftM_bind (Read.result_orFail_eq_ok_iff.mpr listed), Edit.effect_liftM, told]
      obtain ⟨table, middle, told⟩ :=
        completes_ofTree (Edit.completing _) wellFormed' lends answers targets digests computed
      exact ⟨(), middle.insert id table, Edit.effect_bind_of_ok told⟩

/-- If donors are settled, there is an index of them, whichever of them come first. -/
theorem exists_buildInOrder (settled : Donors.Settled stores)
    (among : ∀ id ∈ order, id ∈ identifiers (Donors.ofStores stores)) :
    ∃ index, (buildInOrder (Donors.ofStores stores) order).result = .ok index := by
  have completes : Edit.Completes (Computed stores []) (order.forM
      (computeDigests (Donors.ofStores stores) ((Donors.ofStores stores).trees.length + 1) [])) := by
    refine Edit.completes_forM (fun id inside => ?_) fun id digests computed value after ok =>
      ⟨(Computed.of_computeDigests wellFormed computed ok).of_subset
        (fun _ impossible => absurd impossible List.not_mem_nil), trivial⟩
    obtain ⟨store, counts⟩ := Donors.mem_identifiers_iff.mp (among id inside)
    exact completes_computeDigests wellFormed settled counts (Waits.nil _)
      (fun _ impossible => absurd impossible List.not_mem_nil) (Nat.lt_succ_self _)
  obtain ⟨⟨⟩, digests, visited⟩ := completes ∅ (Computed.empty stores)
  have entered := Edit.result_toRead_of_ok visited
  rw [buildInOrder, Read.result_bind_of_ok entered]
  exact ⟨_, rfl⟩

/-- The digests that an index was made of. -/
theorem computed_of_buildInOrder
    (covers : ∀ id ∈ identifiers (Donors.ofStores stores), id ∈ order)
    (ok : (buildInOrder (Donors.ofStores stores) order).result = .ok index) :
    Computed stores (identifiers (Donors.ofStores stores)) index.digests ∧
      (∀ id ∈ identifiers (Donors.ofStores stores), Donors.Ends stores id) ∧
      index.subtrees = firstSubtrees
        ((identifiers (Donors.ofStores stores)).flatMap (entriesOf index.digests)) ∧
      index.contents = firstContents
        ((identifiers (Donors.ofStores stores)).flatMap (entriesOf index.digests)) := by
  obtain ⟨⟨⟨⟩, digests⟩, visited, ok⟩ := Read.result_bind_eq_ok ok
  obtain ⟨-, -, ok⟩ := Read.result_bind_eq_ok ok
  cases ok
  have computed := Edit.effect_of_result_toRead visited
  have ends := ends_of_forM wellFormed (by simp) computed
  refine ⟨(Computed.of_forM wellFormed (Computed.empty stores) computed).of_subset fun id inside =>
    List.mem_append_left _ (covers id inside), fun id inside => ends id (covers id inside), rfl, rfl⟩

/-- If there is an index, the donors are settled. -/
theorem settled_of_buildInOrder
    (covers : ∀ id ∈ identifiers (Donors.ofStores stores), id ∈ order)
    (ok : (buildInOrder (Donors.ofStores stores) order).result = .ok index) :
    Donors.Settled stores := by
  obtain ⟨computed, ends, -⟩ := computed_of_buildInOrder wellFormed covers ok
  refine ⟨fun store counts key standing found => ?_, fun id circle => ?_⟩
  · have site : (⟨store, key⟩ : Site C) ∈ Donors.sites stores :=
      (Donors.mem_sites_iff wellFormed).mpr ⟨counts, _, found⟩
    obtain ⟨subtree, ⟨content, -⟩, -⟩ := exists_digestAt wellFormed computed site
    rw [Site.content?, Site.payload?, Store.payload?_eq, found] at content
    exact ⟨subtree.content, content⟩
  · obtain ⟨next, ⟨store, key, above, reference, counts, there, -⟩, -⟩ :=
      Relation.TransGen.head'_iff.mp circle
    exact (ends id (Donors.mem_identifiers_iff.mpr ⟨store, counts⟩)).not_circular circle

end Computing

end DonorIndex

end VersionedTrees
