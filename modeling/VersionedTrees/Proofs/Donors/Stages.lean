import VersionedTrees.Proofs.Donors.Expanded
import VersionedTrees.Proofs.Store.Reachable

/-!
# Expanding in stages

An expansion that keeps some references leaves a store that stands for the same as the tree that was expanded:
whatever is kept is a reference to what would have been copied (`Plan.CarriedOut.describes_root_iff`). So it can be
expanded again, and what comes out is what one expansion of everything gives, whichever references were kept
in between (`Donors.expand_in_stages`).
-/

namespace VersionedTrees

variable {C : Type}

namespace Expansion.Plan

variable {plan : Plan C} {store made : Store C} {item : Item} {origin : Key → Origin} {key root : Key}
  {above : Option Key} {keys : List Key} {subtree : Subtree C} {forest : Forest C}

/-! ## What stands where a plan was carried out -/

theorem map_fst_rows (complete : plan.Complete root) :
    (plan.rows root).map Prod.fst = (plan.steps root).map (·.1.key) := by
  rw [rows, List.map_flatMap, List.map_eq_flatMap]
  apply List.flatMap_congr
  intro item inside
  obtain ⟨payload, planned⟩ := complete item inside
  rw [row_of_payload? planned]
  rfl

theorem mem_rows_iff {standing : Standing C} : (key, standing) ∈ plan.rows root ↔
    ∃ item ∈ plan.steps root, item.1.key = key ∧ item.2 = standing.parent ∧
      plan.payload? item.1 = some standing.payload := by
  rw [rows, List.mem_flatMap]
  refine exists_congr fun item => and_congr_right fun _ => ?_
  cases planned : plan.payload? item.1 with
  | none => simp [row, planned]
  | some payload =>
      obtain ⟨parent, held⟩ := standing
      simp [row_of_payload? planned, eq_comm]

section CarriedOut

variable (carriedOut : plan.CarriedOut root made)
include carriedOut

theorem CarriedOut.layout_eq_some_iff {standing : Standing C} : made.layout key = some standing ↔
    ∃ item ∈ plan.steps root, item.1.key = key ∧ item.2 = standing.parent ∧
      plan.payload? item.1 = some standing.payload := by
  rw [carriedOut.builds.layout_eq, Layout.plant_empty_eq_some_iff carriedOut.fresh, mem_rows_iff]

/-- No two steps are at one key. -/
theorem CarriedOut.step_unique {other : Item} (inside : item ∈ plan.steps root)
    (inside' : other ∈ plan.steps root) (same : item.1.key = other.1.key) : item = other := by
  have nodup := Layout.fresh_empty_iff.mp carriedOut.fresh
  rw [map_fst_rows carriedOut.complete] at nodup
  exact List.inj_on_of_nodup_map nodup inside inside' same

variable (wellFormed : ∀ store ∈ plan.source :: plan.donors, store.WellFormed)
  (isRoot : plan.source.root = some root)
include wellFormed isRoot

theorem CarriedOut.root_eq : made.root = some root := by
  have inside := mem_steps_root wellFormed isRoot
  obtain ⟨payload, planned⟩ := carriedOut.complete _ inside
  exact (carriedOut.builds.wellFormed.root root).mpr
    ⟨payload, carriedOut.layout_eq_some_iff.mpr ⟨_, inside, rfl, rfl, planned⟩⟩

omit carriedOut in
/-- A step that is not the first follows from another. -/
theorem exists_step_above (inside : item ∈ plan.steps root) :
    item.2 = none ∨ ∃ upper ∈ plan.steps root, item ∈ plan.next upper := by
  let reached : Item → Prop := fun item =>
    item ∈ plan.steps root ∧ (item.2 = none ∨ ∃ upper ∈ plan.steps root, item ∈ plan.next upper)
  have closed : ∀ item, reached item → ∀ below ∈ plan.next item, reached below :=
    fun item here below follows =>
      ⟨mem_steps_next wellFormed isRoot here.1 follows, .inr ⟨item, here.1, follows⟩⟩
  have start : reached (.own root, none) := ⟨mem_steps_root wellFormed isRoot, .inl rfl⟩
  exact (forall_mem_preorder closed _ start item inside).2

/-- The children of a node are those that the plan has below it. -/
theorem CarriedOut.isChild_iff (inside : item ∈ plan.steps root) :
    made.layout.IsChild key item.1.key ↔ ∃ origin ∈ plan.below item.1, origin.key = key := by
  constructor
  · rintro ⟨payload, found⟩
    obtain ⟨step, there, rfl, parent, -⟩ := carriedOut.layout_eq_some_iff.mp found
    rcases exists_step_above wellFormed isRoot there with top | ⟨upper, there', follows⟩
    · cases top.symm.trans parent
    · obtain ⟨origin, below, rfl⟩ := List.mem_map.mp follows
      obtain rfl := carriedOut.step_unique there' inside (Option.some.inj parent)
      exact ⟨origin, below, rfl⟩
  · rintro ⟨origin, below, rfl⟩
    have there := mem_steps_next wellFormed isRoot inside (List.mem_map_of_mem below)
    obtain ⟨payload, planned⟩ := carriedOut.complete _ there
    exact ⟨payload, carriedOut.layout_eq_some_iff.mpr ⟨_, there, rfl, rfl, planned⟩⟩

/-- Children that come from another store are listed as they are there. -/
theorem CarriedOut.childList_eq {lower : Site C} (inside : item ∈ plan.steps root)
    (comesFrom : ComesFrom plan.donors plan.source lower.store origin)
    (same : plan.below item.1 = lower.children.map origin) :
    made.tree.childList item.1.key = lower.children := by
  have listed := carriedOut.builds.wellFormed.listed
  have listed' := (wellFormed lower.store comesFrom.mem).listed
  refine eq_of_ordered (listed.ordered _) (listed'.ordered _) fun child => ?_
  rw [listed.mem_iff, carriedOut.isChild_iff wellFormed isRoot inside, same]
  simp [comesFrom.key_eq]

variable (allContent : ∀ store ∈ plan.donors, store.AllContent)
include allContent

/-- A node of the expansion stands for what the node stands for that it was made from, if that is so of the
nodes below. -/
theorem CarriedOut.describes_iff_of_step (inside : (origin key, above) ∈ plan.steps root)
    (comesFrom : ComesFrom plan.donors plan.source store origin)
    (below : ∀ (lower : Store C) (origin : Key → Origin) (keys : List Key),
      ComesFrom plan.donors plan.source lower origin →
      (∀ key ∈ keys, ∃ above, (origin key, above) ∈ plan.steps root) →
      (Unfolds plan.donors made keys subtree.below ↔ Unfolds plan.donors lower keys subtree.below)) :
    Describes plan.donors ⟨made, key⟩ subtree ↔ Describes plan.donors ⟨store, key⟩ subtree := by
  have key_eq := comesFrom.key_eq key
  obtain ⟨payload, planned⟩ := carriedOut.complete _ inside
  have there : Site.payload? ⟨made, key⟩ = some payload := Store.payload?_of_layout
    (carriedOut.layout_eq_some_iff.mpr ⟨_, inside, key_eq, rfl, planned⟩ :
      made.layout key = some ⟨above, payload⟩)
  have contributes := plan.contributes allContent comesFrom key
  rw [show plan.payload? (origin key) = some payload from planned] at contributes
  generalize lowerSteps : plan.below (origin key) = origins at contributes
  cases contributes with
  | whole same => rw [same, describes_of_treeReference there]
  | node lower origin' notReference comesFrom' same =>
      rw [same, describes_of_not_isTreeReference there notReference]
      refine and_congr_right fun _ => ?_
      have children : made.tree.childList key = lower.children := by
        rw [← key_eq]
        exact carriedOut.childList_eq wellFormed isRoot inside comesFrom' lowerSteps
      rw [Site.children, children]
      refine below lower.store origin' _ comesFrom' fun child listed => ⟨some (origin key).key, ?_⟩
      refine mem_steps_next wellFormed isRoot inside (List.mem_map_of_mem ?_)
      exact lowerSteps ▸ List.mem_map_of_mem listed

/-- Nodes of the expansion stand for what the nodes stand for that they were made from. -/
theorem CarriedOut.unfolds_iff (comesFrom : ComesFrom plan.donors plan.source store origin)
    (visited : ∀ key ∈ keys, ∃ above, (origin key, above) ∈ plan.steps root) :
    Unfolds plan.donors made keys forest ↔ Unfolds plan.donors store keys forest := by
  induction forest generalizing store origin keys with
  | nil => rw [unfolds_nil_iff, unfolds_nil_iff]
  | cons key value below rest belowHypothesis restHypothesis =>
      rw [unfolds_cons_iff, unfolds_cons_iff]
      refine exists_congr fun others => and_congr_right fun same => ?_
      subst same
      obtain ⟨⟨above, inside⟩, visited⟩ := List.forall_mem_cons.mp visited
      refine and_congr ?_ (restHypothesis comesFrom visited)
      exact carriedOut.describes_iff_of_step wellFormed isRoot allContent inside comesFrom
        fun lower origin keys comesFrom' visited' => belowHypothesis comesFrom' visited'

/-- The root of the expansion stands for what the root of the tree stands for. -/
theorem CarriedOut.describes_root_iff (subtree : Subtree C) :
    Describes plan.donors ⟨made, root⟩ subtree ↔ Describes plan.donors ⟨plan.source, root⟩ subtree :=
  carriedOut.describes_iff_of_step wellFormed isRoot allContent (mem_steps_root wellFormed isRoot)
    (.inl ⟨rfl, rfl⟩) fun _ _ _ comesFrom visited =>
      carriedOut.unfolds_iff wellFormed isRoot allContent comesFrom visited

omit isRoot wellFormed in
/-- An expansion that keeps nothing holds no reference. -/
theorem CarriedOut.allContent_of_full (full : plan.kept = {}) : made.AllContent := by
  intro key payload held
  rw [Store.payload?_eq, Option.map_eq_some_iff] at held
  obtain ⟨standing, found, rfl⟩ := held
  obtain ⟨item, -, -, -, planned⟩ := carriedOut.layout_eq_some_iff.mp found
  obtain ⟨value, content⟩ := exists_content_of_full full allContent planned
  rw [content]
  rfl

end CarriedOut

end Expansion.Plan

/-! ## One expansion after the other -/

namespace Donors

variable {stores : List (Store C)} {source partly expanded : Store C} {root : Key} {kept : Kept}

section Stages

variable (wellFormed : ∀ store ∈ source :: stores, store.WellFormed)
  (allContent : ∀ store ∈ stores, store.AllContent)
include wellFormed allContent

/-- A tree that can be expanded has a root that stands for something, and no reference is left. -/
theorem describes_of_expand (isRoot : source.root = some root)
    (ok : ((ofStores stores).expand source.tree).result = .ok expanded) :
    (∃ subtree, Describes stores ⟨source, root⟩ subtree) ∧ expanded.AllContent := by
  let plan : Expansion.Plan C := ⟨source, stores, {}⟩
  have carriedOut : plan.CarriedOut root expanded := plan.carriedOut_of_expand wellFormed isRoot ok
  have plain := carriedOut.allContent_of_full allContent rfl
  have wellFormed' := carriedOut.builds.wellFormed
  have holds := ((wellFormed'.root root).mp (carriedOut.root_eq wellFormed isRoot)).holds
  -- without references the root of the expansion stands for what is there
  obtain ⟨subtree, describes⟩ := plain.exists_describes wellFormed' stores holds
  exact ⟨⟨subtree, (carriedOut.describes_root_iff wellFormed isRoot allContent subtree).mp describes⟩, plain⟩

/-- A tree and what is left of it by an expansion that keeps references expand to the same rows, if one of
them can be expanded at all. -/
theorem exists_expandsTo_of_stages (ok : ((ofStores stores).expand source.tree kept).result = .ok partly)
    (either : (∃ expanded, ((ofStores stores).expand source.tree).result = .ok expanded) ∨
      ∃ again, ((ofStores stores).expand partly.tree).result = .ok again) :
    partly.id = source.id ∧
      ∃ rows, ExpandsTo stores source rows ∧ ExpandsTo stores partly rows := by
  cases isRoot : source.root with
  | none =>
      obtain rfl := Except.ok.inj ((result_expand_of_no_root isRoot kept).symm.trans ok)
      exact ⟨rfl, [], expandsTo_of_no_root isRoot, expandsTo_of_no_root rfl⟩
  | some root =>
      let plan : Expansion.Plan C := ⟨source, stores, kept⟩
      have carriedOut : plan.CarriedOut root partly := plan.carriedOut_of_expand wellFormed isRoot ok
      have same := carriedOut.describes_root_iff wellFormed isRoot allContent
      have isRoot' := carriedOut.root_eq wellFormed isRoot
      have wellFormed' : ∀ store ∈ partly :: stores, store.WellFormed :=
        List.forall_mem_cons.mpr ⟨carriedOut.builds.wellFormed, (List.forall_mem_cons.mp wellFormed).2⟩
      have described : ∃ subtree, Describes stores ⟨source, root⟩ subtree := by
        rcases either with ⟨expanded, ok⟩ | ⟨again, ok⟩
        · exact (describes_of_expand wellFormed allContent isRoot ok).1
        · obtain ⟨subtree, describes⟩ := (describes_of_expand wellFormed' allContent isRoot' ok).1
          exact ⟨subtree, (same subtree).mp describes⟩
      obtain ⟨subtree, describes⟩ := described
      exact ⟨carriedOut.builds.id_eq, _, expandsTo_of_describes wellFormed allContent isRoot describes,
        expandsTo_of_describes wellFormed' allContent isRoot' ((same subtree).mpr describes)⟩

/-- A tree that can be expanded can be expanded with any references kept. -/
theorem exists_expand_of_expand (kept : Kept)
    (ok : ((ofStores stores).expand source.tree).result = .ok expanded) :
    ∃ partly, ((ofStores stores).expand source.tree kept).result = .ok partly := by
  cases isRoot : source.root with
  | none => exact ⟨_, result_expand_of_no_root isRoot kept⟩
  | some root =>
      obtain ⟨⟨subtree, describes⟩, -⟩ := describes_of_expand wellFormed allContent isRoot ok
      obtain ⟨fresh, -⟩ := (expandsTo_of_describes wellFormed allContent isRoot describes).builds ok
      let plan : Expansion.Plan C := ⟨source, stores, kept⟩
      have among : plan.Among (plan.steps root) _ := plan.among_of_describes_root allContent describes
      refine plan.exists_expand wellFormed isRoot among.contribute ?_
      rw [Layout.fresh_empty_iff, Expansion.Plan.map_fst_rows among.contribute]
      exact (Layout.fresh_empty_iff.mp fresh).sublist among.sublist

end Stages

/-- To expand a tree in stages is to expand it at once. If it can be expanded, it can be expanded with any
references kept, and what is left can be expanded to the same tree. If what is left by an expansion that keeps
references can be expanded, the tree can be expanded at once to the same. An expansion that keeps nothing
holds no reference, and to expand it again gives it back. -/
theorem expand_in_stages (reachable : ∀ store ∈ source :: stores, store.Reachable)
    (allContent : ∀ store ∈ stores, store.AllContent) (kept : Kept) :
    (∀ expanded, ((ofStores stores).expand source.tree).result = .ok expanded →
      ∃ partly again, ((ofStores stores).expand source.tree kept).result = .ok partly ∧
        ((ofStores stores).expand partly.tree).result = .ok again ∧
        again.id = expanded.id ∧ again.tree.SameReads expanded.tree) ∧
    (∀ partly again, ((ofStores stores).expand source.tree kept).result = .ok partly →
      ((ofStores stores).expand partly.tree).result = .ok again →
      ∃ expanded, ((ofStores stores).expand source.tree).result = .ok expanded ∧
        expanded.id = again.id ∧ expanded.tree.SameReads again.tree) ∧
    ∀ expanded, ((ofStores stores).expand source.tree).result = .ok expanded →
      expanded.AllContent ∧ ∃ again, ((ofStores stores).expand expanded.tree).result = .ok again ∧
        again.id = expanded.id ∧ again.tree.SameReads expanded.tree := by
  have wellFormed : ∀ store ∈ source :: stores, store.WellFormed :=
    fun store inside => (reachable store inside).wellFormed
  refine ⟨fun expanded ok => ?_, fun partly again left ok => ?_, fun expanded ok => ⟨?_, ?_⟩⟩
  · obtain ⟨partly, left⟩ := exists_expand_of_expand wellFormed allContent kept ok
    obtain ⟨sameId, rows, whole, rest⟩ :=
      exists_expandsTo_of_stages wellFormed allContent left (.inl ⟨expanded, ok⟩)
    obtain ⟨again, ok', same⟩ := whole.exists_same rest sameId ok
    exact ⟨partly, again, left, ok', same⟩
  · obtain ⟨sameId, rows, whole, rest⟩ :=
      exists_expandsTo_of_stages wellFormed allContent left (.inr ⟨again, ok⟩)
    exact rest.exists_same whole sameId.symm ok
  · cases isRoot : source.root with
    | none =>
        obtain rfl := Except.ok.inj ((result_expand_of_no_root isRoot {}).symm.trans ok)
        intro key payload held
        rw [Store.payload?_eq, Store.layout_empty] at held
        cases held
    | some root => exact (describes_of_expand wellFormed allContent isRoot ok).2
  · -- an expansion that keeps nothing is a stage before another
    obtain ⟨sameId, rows, whole, rest⟩ :=
      exists_expandsTo_of_stages wellFormed allContent ok (.inl ⟨expanded, ok⟩)
    exact whole.exists_same rest sameId ok

/-- A reference is kept by its own key and a copied node by its key, which leaves a reference to that node. The
second stage replaces both. -/
theorem expand_in_stages_chain :
    let source : Store String := .ofEdits ⟨2⟩ [.insert none (.exactly (.number 10)) (.content "own"),
      .insert (some (.number 10)) (.exactly (.number 11)) (.treeReference ⟨⟨1⟩, .number 1⟩),
      .insert (some (.number 10)) (.exactly (.number 12)) (.nodeReference ⟨⟨1⟩, .number 3⟩)]
    let kept : Kept := ⟨(· == .number 12), (· == .number 2)⟩
    (∀ store ∈ [source, .chain], store.Reachable) ∧ (∀ store ∈ [Store.chain], store.AllContent) ∧
      ∃ expanded partly again, ((ofStores [.chain]).expand source.tree).result = .ok expanded ∧
        expanded.entries = [(.number 2, .content "middle"), (.number 3, .content "leaf"),
          (.number 10, .content "own"), (.number 11, .content "root"), (.number 12, .content "leaf")] ∧
        ((ofStores [.chain]).expand source.tree kept).result = .ok partly ∧
        partly.entries = [(.number 2, .treeReference ⟨⟨1⟩, .number 2⟩), (.number 10, .content "own"),
          (.number 11, .content "root"), (.number 12, .nodeReference ⟨⟨1⟩, .number 3⟩)] ∧
        ((ofStores [.chain]).expand partly.tree).result = .ok again ∧
        again.id = expanded.id ∧ again.tree.SameReads expanded.tree ∧ expanded.AllContent := by
  intro source kept
  have reachable : ∀ store ∈ [source, .chain], store.Reachable := by
    intro store inside
    simp only [List.mem_cons, List.not_mem_nil, or_false] at inside
    rcases inside with rfl | rfl <;> exact Store.reachable_ofEdits _ _
  have allContent : ∀ store ∈ [Store.chain], store.AllContent := by
    intro store inside
    obtain rfl := List.mem_singleton.mp inside
    exact Store.allContent_chain
  have whole : (do return (← (ofStores [.chain]).expand source.tree).entries : Read _).result = .ok
      [(.number 2, .content "middle"), (.number 3, .content "leaf"), (.number 10, .content "own"),
        (.number 11, .content "root"), (.number 12, .content "leaf")] := by decide +kernel
  have part : (do return (← (ofStores [.chain]).expand source.tree kept).entries : Read _).result = .ok
      [(.number 2, .treeReference ⟨⟨1⟩, .number 2⟩), (.number 10, .content "own"),
        (.number 11, .content "root"), (.number 12, .nodeReference ⟨⟨1⟩, .number 3⟩)] := by decide +kernel
  obtain ⟨expanded, expands, entries⟩ := Read.result_bind_eq_ok whole
  obtain ⟨first, -, last⟩ := expand_in_stages reachable allContent kept
  obtain ⟨partly, again, left, expands', sameId, sameReads⟩ := first expanded expands
  rw [Read.result_bind_of_ok left] at part
  exact ⟨reachable, allContent, expanded, partly, again, expands, Except.ok.inj entries, left,
    Except.ok.inj part, expands', sameId, sameReads, (last expanded expands).1⟩

end Donors

end VersionedTrees
