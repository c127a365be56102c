import VersionedTrees.Proofs.Donors.Carried

/-!
# Expanding is resolving

If donors hold content everywhere, then to expand a tree is to build the subtree that its root stands for
(`Donors.expandsTo_of_describes`), whatever references the tree has. The expansion succeeds exactly when no key
comes twice in that subtree.
-/

namespace VersionedTrees

variable {C : Type}

/-- In a store without references all nodes have their children below themselves. -/
theorem Store.AllContent.source_eq {stores : List (Store C)} {site source : Site C}
    (allContent : site.store.AllContent) (found : source ∈ site.source? stores) : source = site := by
  rw [Site.source?] at found
  split at found
  · rename_i there
    cases allContent _ _ there
  · exact (Option.some.inj found).symm
  · exact (Option.some.inj found).symm
  · cases found

/-! ## Plans that keep nothing -/

namespace Expansion.Plan

variable {plan : Plan C} {store : Store C} {origin : Key → Origin} {key root parent : Key}
  {above : Option Key} {keys : List Key} {subtree : Subtree C} {forest : Forest C} {levels : Nat}
  (full : plan.kept = {}) (allContent : ∀ store ∈ plan.donors, store.AllContent)
include full allContent

/-- Where nothing is kept, every node becomes content. -/
theorem exists_content_of_full {origin : Origin} {payload : Payload C}
    (planned : plan.payload? origin = some payload) : ∃ value, payload = .content value := by
  cases origin with
  | own key =>
      obtain ⟨own, there, -⟩ := Option.bind_eq_some_iff.mp planned
      have goes : ¬ own.reference?.any (plan.kept.keeps key ·.key) = true := by
        rw [full]
        cases own <;> exact Bool.false_ne_true
      rw [payload?_own there, if_neg goes, Option.map_eq_some_iff] at planned
      obtain ⟨value, -, same⟩ := planned
      exact ⟨value, same.symm⟩
  | donor id key =>
      have goes : ¬ plan.kept.keeps key key = true := by
        rw [full]
        exact Bool.false_ne_true
      rw [payload?, if_neg goes] at planned
      obtain ⟨donor, counts, there⟩ := Option.bind_eq_some_iff.mp planned
      exact Payload.exists_content (allContent donor (Donors.mem_of_storeOf counts) key payload there)

/-- Where nothing is kept, the rows from a node are those of the subtree that it stands for. -/
theorem rows_of_describes (comesFrom : ComesFrom plan.donors plan.source store origin)
    (below : ∀ (lower : Store C) (origin : Key → Origin) (keys : List Key),
      ComesFrom plan.donors plan.source lower origin → Unfolds plan.donors lower keys subtree.below →
      (∀ item ∈ keys.map fun child => (origin child, some key), Exhausts plan.next levels item) →
      (keys.map fun child => (origin child, some key)).flatMap
          (fun item => (preorder plan.next levels item).flatMap plan.row) = subtree.below.rows key)
    (describes : Describes plan.donors ⟨store, key⟩ subtree)
    (enough : Exhausts plan.next (levels + 1) (origin key, above)) :
    (preorder plan.next (levels + 1) (origin key, above)).flatMap plan.row = subtree.rows key above := by
  have key_eq := comesFrom.key_eq key
  have contributes := plan.contributes allContent comesFrom key
  have next : plan.next (origin key, above) = (plan.below (origin key)).map (·, some key) := by
    rw [Plan.next, key_eq]
  rw [Exhausts, next] at enough
  rw [preorder, next, List.flatMap_cons, List.flatMap_assoc]
  generalize planned : plan.payload? (origin key) = contribution at contributes
  generalize plan.below (origin key) = origins at contributes enough
  cases contributes with
  | nothing refused => exact absurd describes (refused subtree)
  | whole same =>
      obtain ⟨value, impossible⟩ := exists_content_of_full full allContent planned
      cases impossible
  | node lower origin' notReference comesFrom' same =>
      obtain ⟨value, rfl⟩ := exists_content_of_full full allContent planned
      obtain ⟨lent, unfolds⟩ := (same subtree).mp describes
      obtain rfl := Option.some.inj lent
      rw [row_of_payload? planned, key_eq, Subtree.rows]
      rw [List.map_map] at enough ⊢
      exact congrArg (List.cons _) (below lower.store origin' _ comesFrom' unfolds enough)

/-- Where nothing is kept, the rows from nodes side by side are those of the forest that they stand for. -/
theorem rows_of_unfolds (comesFrom : ComesFrom plan.donors plan.source store origin)
    (unfolds : Unfolds plan.donors store keys forest)
    (enough : ∀ item ∈ keys.map fun key => (origin key, some parent), Exhausts plan.next levels item) :
    (keys.map fun key => (origin key, some parent)).flatMap
      (fun item => (preorder plan.next levels item).flatMap plan.row) = forest.rows parent := by
  induction forest generalizing store origin keys levels parent with
  | nil =>
      obtain rfl := unfolds_nil_iff.mp unfolds
      rfl
  | cons key value below rest belowHypothesis restHypothesis =>
      obtain ⟨others, rfl, describes, later⟩ := unfolds_cons_iff.mp unfolds
      obtain ⟨first, enough⟩ := List.forall_mem_cons.mp enough
      rw [List.map_cons, List.flatMap_cons, restHypothesis comesFrom later enough, Forest.rows]
      cases levels with
      | zero => exact first.elim
      | succ levels =>
          rw [rows_of_describes full allContent comesFrom
            (fun lower origin keys comesFrom' unfolds' enough' =>
              belowHypothesis comesFrom' unfolds' enough') describes first]
          rfl

/-- Where nothing is kept, the rows are those of the subtree that the root stands for. -/
theorem rows_of_describes_root (wellFormed : ∀ store ∈ plan.source :: plan.donors, store.WellFormed)
    (isRoot : plan.source.root = some root)
    (describes : Describes plan.donors ⟨plan.source, root⟩ subtree) :
    plan.rows root = subtree.rows root none := by
  have enough := exhausts_steps wellFormed isRoot
  rw [rows, steps]
  generalize Expansion.levels plan.source.tree (Donors.ofStores plan.donors) = levels at enough ⊢
  cases levels with
  | zero => exact enough.elim
  | succ levels =>
      exact rows_of_describes full allContent (.inl ⟨rfl, rfl⟩)
        (fun lower origin keys comesFrom unfolds enough =>
          rows_of_unfolds full allContent comesFrom unfolds enough) describes enough

end Expansion.Plan

namespace Donors

/-- An expansion succeeds exactly when no key comes twice among some rows, and builds them. -/
def ExpandsTo (stores : List (Store C)) (source : Store C) (rows : List (Layout.Row C)) : Prop :=
  (Layout.Fresh (fun _ => none) rows ∧
      ∃ expanded, ((ofStores stores).expand source.tree).result = .ok expanded ∧
        expanded.Builds source.id (Layout.plant (fun _ => none) rows)) ∨
    (¬ Layout.Fresh (fun _ => none) rows ∧
      ∃ fault, ((ofStores stores).expand source.tree).result = .error (.delta fault))

section Expanding

variable {stores : List (Store C)} {source store : Store C} {key root parent : Key}
  {subtree : Subtree C} {keys : List Key} {forest : Forest C} {rows : List (Layout.Row C)}
  {expanded : Store C} {levels : Nat}

/-- What an expansion has built are the rows. -/
theorem ExpandsTo.builds (expandsTo : ExpandsTo stores source rows)
    (ok : ((ofStores stores).expand source.tree).result = .ok expanded) :
    Layout.Fresh (fun _ => none) rows ∧
      expanded.Builds source.id (Layout.plant (fun _ => none) rows) := by
  rcases expandsTo with ⟨fresh, other, ok', builds⟩ | ⟨-, fault, failed⟩
  · cases ok.symm.trans ok'
    exact ⟨fresh, builds⟩
  · cases ok.symm.trans failed

theorem ExpandsTo.of_fresh (expandsTo : ExpandsTo stores source rows)
    (fresh : Layout.Fresh (fun _ => none) rows) :
    ∃ expanded, ((ofStores stores).expand source.tree).result = .ok expanded ∧
      expanded.Builds source.id (Layout.plant (fun _ => none) rows) :=
  (expandsTo.resolve_right fun stale => stale.1 fresh).2

/-- Stores with one identifier that expand to the same rows expand to the same tree. -/
theorem ExpandsTo.exists_same {other : Store C} (first : ExpandsTo stores source rows)
    (second : ExpandsTo stores other rows) (sameId : other.id = source.id)
    (ok : ((ofStores stores).expand source.tree).result = .ok expanded) :
    ∃ again, ((ofStores stores).expand other.tree).result = .ok again ∧ again.id = expanded.id ∧
      again.tree.SameReads expanded.tree := by
  obtain ⟨fresh, builds⟩ := first.builds ok
  obtain ⟨again, ok', builds'⟩ := second.of_fresh fresh
  refine ⟨again, ok', (builds'.id_eq.trans sameId).trans builds.id_eq.symm, ?_⟩
  have shows := builds'.wellFormed.shows
  rw [builds'.layout_eq, ← builds.layout_eq] at shows
  exact shows.sameReads builds.wellFormed.shows

/-- Without a root there is nothing to expand. -/
theorem result_expand_of_no_root (none : source.root = none) (kept : Kept) :
    ((ofStores stores).expand source.tree kept).result = .ok (Store.empty source.id) := by
  have rootKey : source.tree.rootKey.result = .ok .none := congrArg Except.ok none
  rw [expand, Read.result_bind_of_ok rootKey]
  rfl

theorem expandsTo_of_no_root (none : source.root = none) : ExpandsTo stores source [] :=
  .inl ⟨Layout.fresh_nil _, Store.empty source.id, result_expand_of_no_root none {},
    Store.builds_empty source.id {}⟩

/-- A tree expands to the subtree that its root stands for. -/
theorem expandsTo_of_describes (wellFormed : ∀ store ∈ source :: stores, store.WellFormed)
    (allContent : ∀ store ∈ stores, store.AllContent) (isRoot : source.root = some root)
    (describes : Describes stores ⟨source, root⟩ subtree) :
    ExpandsTo stores source (subtree.rows root none) := by
  let plan : Expansion.Plan C := ⟨source, stores, {}⟩
  have rootKey : source.tree.rootKey.result = .ok (some root) := congrArg Except.ok isRoot
  have complete : plan.Complete root := (plan.among_of_describes_root allContent describes).contribute
  have planted := plan.plants_visit wellFormed isRoot complete
  rw [plan.rows_of_describes_root rfl allContent wellFormed isRoot describes] at planted
  rw [ExpandsTo, expand, Read.result_bind_of_ok rootKey]
  by_cases fresh : Layout.Fresh (fun _ => none) (subtree.rows root none)
  · obtain ⟨after, ok, built⟩ := planted.places fresh
    exact .inl ⟨fresh, after.tree, Read.result_bind_of_ok (Edit.result_toRead_of_ok ok), built⟩
  · obtain ⟨fault, after, failed⟩ := planted.rejects trivial fresh
    exact .inr ⟨fresh, fault, Read.result_bind_of_error (Edit.result_toRead_of_error failed)⟩

/-! ## Without references -/

/-- In a store without references the rows of a subtree are those of the store, if those below are. -/
theorem subtree_rows_of_describes {above : Option Key} {payload : Payload C}
    (allContent : store.AllContent) (found : store.layout key = some ⟨above, payload⟩)
    (describes : Describes stores ⟨store, key⟩ subtree)
    (below : subtree.below.rows key = (store.tree.childList key).flatMap fun child =>
      store.rowsOf (preorder store.tree.childList levels child)) :
    subtree.rows key above = store.rowsOf (preorder store.tree.childList (levels + 1) key) := by
  obtain ⟨value, rfl⟩ := allContent.exists_content found
  obtain rfl : value = subtree.content :=
    Option.some.inj (describes.lent (Store.payload?_of_layout found))
  rw [Subtree.rows, below, Store.rowsOf_preorder_of_layout found]

/-- In a store without references the rows of a forest are those of the store. -/
theorem rows_of_unfolds (wellFormed : store.WellFormed) (allContent : store.AllContent)
    (placed : ∀ key ∈ keys, store.layout.IsChild key parent)
    (enough : ∀ key ∈ keys, Exhausts store.tree.childList levels key)
    (unfolds : Unfolds stores store keys forest) : forest.rows parent =
      keys.flatMap fun key => store.rowsOf (preorder store.tree.childList levels key) := by
  induction forest generalizing keys parent levels with
  | nil =>
      obtain rfl := unfolds_nil_iff.mp unfolds
      rfl
  | cons key value below rest belowHypothesis restHypothesis =>
      obtain ⟨others, rfl, describes, later⟩ := unfolds_cons_iff.mp unfolds
      obtain ⟨⟨payload, there⟩, placed⟩ := List.forall_mem_cons.mp placed
      obtain ⟨first, enough⟩ := List.forall_mem_cons.mp enough
      rw [List.flatMap_cons, ← restHypothesis placed enough later]
      cases levels with
      | zero => exact first.elim
      | succ levels =>
          obtain ⟨site, found, lower⟩ := describes.2
          obtain rfl : site = ⟨store, key⟩ := Store.AllContent.source_eq allContent found
          have listed := fun child => (wellFormed.listed.mem_iff key child).mp
          rw [← subtree_rows_of_describes allContent there describes
            (belowHypothesis listed first lower)]
          rfl

/-- The root of a store without references stands for the rows of the store. -/
theorem rows_of_describes_root (wellFormed : store.WellFormed) (allContent : store.AllContent)
    (isRoot : store.root = some root) (describes : Describes stores ⟨store, root⟩ subtree) :
    subtree.rows root none = store.rows := by
  obtain ⟨payload, found⟩ := (wellFormed.root root).mp isRoot
  obtain ⟨site, reached, lower⟩ := describes.2
  obtain rfl : site = ⟨store, root⟩ := Store.AllContent.source_eq allContent reached
  have enough := wellFormed.shows.exhausts ⟨_, found⟩ (Nat.le_refl _)
  have placed := fun child => (wellFormed.listed.mem_iff root child).mp
  have spanned : ∀ child ∈ store.tree.childList root,
      Exhausts store.tree.childList store.tree.span child := fun child listed =>
    wellFormed.shows.exhausts (placed child listed).holds (Nat.le_refl _)
  rw [subtree_rows_of_describes allContent found describes
    (rows_of_unfolds wellFormed allContent placed spanned lower), Store.rows, isRoot,
    Option.elim_some, Store.rowsFrom, preorder_eq_of_exhausts enough (Nat.le_succ _)]

end Expanding

end Donors

end VersionedTrees
