import Mathlib.Data.List.Flatten
import VersionedTrees.Donors.Normalized
import VersionedTrees.Proofs.Buffer.Reads
import VersionedTrees.Proofs.Store.Building
import VersionedTrees.Proofs.Store.Rows

/-!
# Restating a tree

To restate a tree is to decide of each node what it becomes and whether the nodes below it are kept, in
pre-order. If the decision depends on the node alone, the rows of the restated tree are known beforehand
(`Normalized.rowsBy`), no key comes twice among them, and normalizing builds them
(`Normalized.restates_ofTree`). They are then the rows of the store that was built, in this order
(`Normalized.rows_of_builds`).
-/

namespace VersionedTrees

variable {C : Type}

/-- With fewer items that follow, the list of a visit is a part of the list. -/
theorem preorder_sublist {α : Type} {fewer next : α → List α}
    (sublist : ∀ item, (fewer item).Sublist (next item)) (levels : Nat) (item : α) :
    (preorder fewer levels item).Sublist (preorder next levels item) := by
  induction levels generalizing item with
  | zero => exact .slnil
  | succ levels inductionHypothesis =>
      rw [preorder, preorder]
      refine .cons_cons _ (((sublist item).flatMap _).trans ?_)
      exact .flatMap_right _ fun below _ => inductionHypothesis below

namespace Normalized

/-- What the node under a key becomes, given what it holds, and whether the nodes below it are kept. -/
abbrev Decision (C : Type) := Key → Payload C → Payload C × Bool

/-- The items below an item that are kept. -/
def itemsBy (decision : Decision C) (target : Store C) (item : Key × Option Key) :
    List (Key × Option Key) :=
  (target.layout item.1).elim [] fun standing =>
    if (decision item.1 standing.payload).2 then target.tree.itemsBelow item else []

/-- The row that an item becomes. -/
def rowBy (decision : Decision C) (target : Store C) (item : Key × Option Key) :
    List (Layout.Row C) :=
  (target.layout item.1).elim [] fun standing =>
    [(item.1, ⟨item.2, (decision item.1 standing.payload).1⟩)]

/-- The rows that a store becomes. -/
def rowsBy (decision : Decision C) (target : Store C) : List (Layout.Row C) :=
  target.root.elim [] fun root =>
    (preorder (itemsBy decision target) target.tree.levels (root, none)).flatMap
      (rowBy decision target)

section Rows

variable {decision : Decision C} {target : Store C} {key parent : Key} {above : Option Key}
  {payload : Payload C} {standing : Standing C} {item below : Key × Option Key}

theorem itemsBy_of_layout (found : target.layout key = some standing) :
    itemsBy decision target (key, above) =
      if (decision key standing.payload).2 then target.tree.itemsBelow (key, above) else [] := by
  rw [itemsBy, found]
  rfl

theorem rowBy_of_layout (found : target.layout key = some ⟨above, payload⟩) :
    rowBy decision target (key, above) = [(key, ⟨above, (decision key payload).1⟩)] := by
  rw [rowBy, found]
  rfl

/-- The items that are kept are items of the store. -/
theorem itemsBy_sublist (decision : Decision C) (target : Store C) (item : Key × Option Key) :
    (itemsBy decision target item).Sublist (target.tree.itemsBelow item) := by
  rw [itemsBy]
  cases target.layout item.1 with
  | none => exact List.nil_sublist _
  | some standing =>
      rw [Option.elim_some]
      split
      · exact .refl _
      · exact List.nil_sublist _

variable (wellFormed : target.WellFormed)
include wellFormed

theorem placed_of_itemsBy (inside : below ∈ itemsBy decision target item) : target.Placed below :=
  wellFormed.placed_below ((itemsBy_sublist decision target item).subset inside)

/-- A visit of what is kept comes to an end. -/
theorem exhausts_itemsBy (decision : Decision C) {root : Key} (isRoot : target.root = some root) :
    Exhausts (itemsBy decision target) target.tree.levels (root, none) := by
  refine .of_rename Prod.fst (fun item below inside => ?_)
    (wellFormed.shows.exhausts ((wellFormed.root root).mp isRoot).holds (Nat.le_succ _))
  obtain ⟨child, listed, rfl⟩ :=
    List.mem_map.mp ((itemsBy_sublist decision target item).subset inside)
  exact listed

/-- No key comes twice among the rows that a store becomes. -/
theorem fresh_rowsBy : Layout.Fresh (fun _ => none) (rowsBy decision target) := by
  rw [Layout.fresh_empty_iff, rowsBy]
  cases found : target.root with
  | none => exact List.nodup_nil
  | some root =>
      have isRoot := (wellFormed.root root).mp found
      rw [Option.elim_some]
      have kept := (preorder_sublist (itemsBy_sublist decision target) target.tree.levels
        (root, none)).map Prod.fst
      rw [target.map_fst_preorder_items] at kept
      refine (wellFormed.listed.nodup_preorder wellFormed.isTree isRoot.holds).sublist
        (.trans ?_ kept)
      rw [List.map_flatMap, List.map_eq_flatMap]
      refine .flatMap_right _ fun item _ => ?_
      rw [rowBy]
      cases target.layout item.1 with
      | none => exact List.nil_sublist _
      | some standing => exact .refl _

/-- An item that is kept is in its place. Its parent, if it has one, is kept as well and decided to keep
what is below it. -/
def KeptBy (decision : Decision C) (target : Store C) (item : Key × Option Key) : Prop :=
  target.Placed item ∧ ∀ parent, item.2 = some parent →
    ∃ standing, target.layout parent = some standing ∧
      (decision parent standing.payload).2 = true

/-- A row restates the node under its key. -/
theorem restates_of_mem_rowsBy (inside : (key, standing) ∈ rowsBy decision target) :
    ∃ payload, target.layout key = some ⟨standing.parent, payload⟩ ∧
      standing.payload = (decision key payload).1 ∧
      ∀ parent, standing.parent = some parent → ∃ standing, target.layout parent = some standing ∧
        (decision parent standing.payload).2 = true := by
  rw [rowsBy] at inside
  cases found : target.root with
  | none => simp [found] at inside
  | some root =>
      rw [found, Option.elim_some] at inside
      have start : KeptBy decision target (root, none) :=
        ⟨(wellFormed.root root).mp found, fun _ impossible => nomatch impossible⟩
      have closed : ∀ item, KeptBy decision target item →
          ∀ below ∈ itemsBy decision target item, KeptBy decision target below := by
        rintro item ⟨⟨payload, placed⟩, -⟩ below inside
        refine ⟨placed_of_itemsBy wellFormed inside, fun parent same => ?_⟩
        rw [itemsBy, placed, Option.elim_some] at inside
        split at inside
        · rename_i descends
          obtain ⟨child, -, rfl⟩ := List.mem_map.mp inside
          obtain rfl := Option.some.inj same
          exact ⟨_, placed, descends⟩
        · exact absurd inside List.not_mem_nil
      obtain ⟨item, visited, among⟩ := List.mem_flatMap.mp inside
      obtain ⟨⟨payload, placed⟩, above⟩ := forall_mem_preorder closed _ start item visited
      rw [rowBy, placed, Option.elim_some, List.mem_singleton, Prod.mk.injEq] at among
      obtain ⟨rfl, rfl⟩ := among
      exact ⟨payload, placed, rfl, above⟩

/-- The root of a store is restated. -/
theorem mem_rowsBy_of_root (decision : Decision C) {root : Key} (isRoot : target.root = some root)
    (found : target.layout root = some standing) :
    (root, ⟨none, (decision root standing.payload).1⟩) ∈ rowsBy decision target := by
  have enough := exhausts_itemsBy wellFormed decision isRoot
  rw [rowsBy, isRoot, Option.elim_some]
  refine List.mem_flatMap.mpr ⟨(root, none), mem_preorder_self enough, ?_⟩
  rw [rowBy, found]
  exact List.mem_singleton_self _

/-- The children of a node that keeps what is below it are restated. -/
theorem mem_rowsBy_of_child (inside : (parent, standing) ∈ rowsBy decision target)
    {held : Standing C} (found : target.layout parent = some held)
    (descends : (decision parent held.payload).2 = true)
    (below : target.layout key = some ⟨some parent, payload⟩) :
    (key, ⟨some parent, (decision key payload).1⟩) ∈ rowsBy decision target := by
  rw [rowsBy] at inside ⊢
  cases isRoot : target.root with
  | none => simp [isRoot] at inside
  | some root =>
      rw [isRoot, Option.elim_some] at inside
      obtain ⟨⟨other, above⟩, visited, among⟩ := List.mem_flatMap.mp inside
      obtain rfl : parent = other := by
        rw [rowBy] at among
        cases there : target.layout other with
        | none => simp [there] at among
        | some standing =>
            rw [there] at among
            exact (Prod.mk.inj (List.mem_singleton.mp among)).1
      have enough := exhausts_itemsBy wellFormed decision isRoot
      have follows : (key, some parent) ∈ itemsBy decision target (parent, above) := by
        rw [itemsBy_of_layout found, if_pos descends]
        exact List.mem_map.mpr ⟨key, (wellFormed.listed.mem_iff parent key).mpr ⟨_, below⟩, rfl⟩
      refine List.mem_flatMap.mpr
        ⟨(key, some parent), mem_preorder_next enough visited follows, ?_⟩
      rw [rowBy_of_layout below]
      exact List.mem_singleton_self _

/-- Each child of a node that keeps what is below it has a row. -/
theorem exists_row_of_listed (inside : (parent, standing) ∈ rowsBy decision target)
    {held : Standing C} (found : target.layout parent = some held)
    (descends : (decision parent held.payload).2 = true) :
    ∀ child ∈ target.tree.childList parent, ∃ held, target.layout child = some held ∧
      (child, ⟨held.parent, (decision child held.payload).1⟩) ∈ rowsBy decision target := by
  intro child listed
  obtain ⟨payload, there⟩ := (wellFormed.listed.mem_iff parent child).mp listed
  exact ⟨_, there, mem_rowsBy_of_child wellFormed inside found descends there⟩

/-- If a decision changes nothing that a node holds and keeps what is below it, the rows that a store
becomes are those of its own layout. -/
theorem plant_rowsBy_of_unchanged (unchanged : ∀ key standing, target.layout key = some standing →
      (decision key standing.payload).1 = standing.payload)
    (keeps : ∀ parent key standing, target.layout parent = some standing →
      target.layout.IsChild key parent → (decision parent standing.payload).2 = true) :
    Layout.plant (fun _ => none) (rowsBy decision target) = target.layout := by
  have inside : ∀ key, target.layout.Holds key → ∀ standing, target.layout key = some standing →
      (key, standing) ∈ rowsBy decision target := by
    intro key holds
    refine wellFormed.isTree.induction key holds ?_ ?_
    · rintro root ⟨payload, found⟩ standing found'
      obtain rfl := Option.some.inj (found.symm.trans found')
      have listed := mem_rowsBy_of_root wellFormed decision ((wellFormed.root root).mpr ⟨_, found⟩) found
      rwa [unchanged root _ found] at listed
    · rintro key parent ⟨payload, below⟩ ⟨held, found⟩ above standing found'
      obtain rfl := Option.some.inj (below.symm.trans found')
      have descends := keeps parent key held found ⟨_, below⟩
      have listed := mem_rowsBy_of_child wellFormed (above held found) found descends below
      rwa [unchanged key _ below] at listed
  funext key
  ext standing
  rw [Layout.plant_empty_eq_some_iff (fresh_rowsBy wellFormed)]
  constructor
  · intro listed
    obtain ⟨payload, found, same, -⟩ := restates_of_mem_rowsBy wellFormed listed
    obtain rfl : payload = standing.payload := (unchanged key _ found).symm.trans same.symm
    exact found
  · exact fun found => inside key ⟨_, found⟩ standing found

/-! ## A store with the rows -/

section Built

variable {store : Store C} {id : TreeId} {held : Standing C}
  (builds : store.Builds id (Layout.plant (fun _ => none) (rowsBy decision target)))
include builds

theorem layout_iff_of_builds :
    store.layout key = some standing ↔ (key, standing) ∈ rowsBy decision target := by
  rw [builds.layout_eq, Layout.plant_empty_eq_some_iff (fresh_rowsBy wellFormed)]

theorem isChild_of_builds (isChild : store.layout.IsChild key parent) :
    target.layout.IsChild key parent := by
  obtain ⟨payload, there⟩ := isChild
  obtain ⟨payload', below, -⟩ :=
    restates_of_mem_rowsBy wellFormed ((layout_iff_of_builds wellFormed builds).mp there)
  exact ⟨payload', below⟩

/-- A node that was restated keeps its children, or has none. -/
theorem childList_of_builds (inside : (key, standing) ∈ rowsBy decision target)
    (found : target.layout key = some held) : store.tree.childList key =
      if (decision key held.payload).2 then target.tree.childList key else [] := by
  have listed := builds.wellFormed.listed
  split
  · rename_i descends
    refine listed.eq_of_isChild_iff wellFormed.listed fun child => ?_
    constructor
    · exact isChild_of_builds wellFormed builds
    · rintro ⟨payload, below⟩
      exact ⟨_, (layout_iff_of_builds wellFormed builds).mpr
        (mem_rowsBy_of_child wellFormed inside found descends below)⟩
  · rename_i ends
    refine List.eq_nil_iff_forall_not_mem.mpr fun child among => ?_
    obtain ⟨payload, there⟩ := (listed.mem_iff key child).mp among
    obtain ⟨-, -, -, above⟩ :=
      restates_of_mem_rowsBy wellFormed ((layout_iff_of_builds wellFormed builds).mp there)
    obtain ⟨held', found', descends⟩ := above key rfl
    obtain rfl := Option.some.inj (found.symm.trans found')
    exact ends descends

/-- What is at and below a node that was restated are the rows of a visit from there. -/
theorem rowsOf_of_builds {levels : Nat} (found : target.layout key = some held)
    (inside : (key, ⟨held.parent, (decision key held.payload).1⟩) ∈ rowsBy decision target) :
    store.rowsOf (preorder store.tree.childList levels key) =
      (preorder (itemsBy decision target) levels (key, held.parent)).flatMap
        (rowBy decision target) := by
  induction levels generalizing key held with
  | zero => rfl
  | succ levels inductionHypothesis =>
      have there := (layout_iff_of_builds wellFormed builds).mpr inside
      rw [Store.rowsOf_preorder_of_layout there, preorder, List.flatMap_cons, List.flatMap_assoc,
        rowBy_of_layout found, itemsBy_of_layout found,
        childList_of_builds wellFormed builds inside found]
      apply congrArg (List.cons _)
      split
      · rename_i descends
        rw [Tree.itemsBelow, List.flatMap_map]
        apply List.flatMap_congr
        intro child among
        obtain ⟨payload, below⟩ := (wellFormed.listed.mem_iff key child).mp among
        exact inductionHypothesis below (mem_rowsBy_of_child wellFormed inside found descends below)
      · rfl

/-- The root is kept. -/
theorem root_of_builds : store.root = target.root := by
  ext root
  rw [builds.wellFormed.root, wellFormed.root]
  constructor
  · rintro ⟨payload, there⟩
    obtain ⟨payload', found, -⟩ :=
      restates_of_mem_rowsBy wellFormed ((layout_iff_of_builds wellFormed builds).mp there)
    exact ⟨payload', found⟩
  · intro isRoot
    obtain ⟨payload, found⟩ := isRoot
    exact ⟨_, (layout_iff_of_builds wellFormed builds).mpr
      (mem_rowsBy_of_root wellFormed decision ((wellFormed.root root).mpr ⟨payload, found⟩) found)⟩

/-- The rows that a store becomes are the rows of the store that they build. -/
theorem rows_of_builds : store.rows = rowsBy decision target := by
  rw [Store.rows, rowsBy, root_of_builds wellFormed builds]
  cases isRoot : target.root with
  | none => rfl
  | some root =>
      obtain ⟨payload, found⟩ := (wellFormed.root root).mp isRoot
      have inside := mem_rowsBy_of_root wellFormed decision isRoot found
      have built := (layout_iff_of_builds wellFormed builds).mpr inside
      have enough := builds.wellFormed.shows.exhausts ⟨_, built⟩ (Nat.le_refl _)
      have enough' : Exhausts store.tree.childList target.tree.levels root :=
        (wellFormed.shows.exhausts ⟨_, found⟩ (Nat.le_succ _)).of_subset fun key child among =>
          (wellFormed.listed.mem_iff key child).mpr (isChild_of_builds wellFormed builds
            ((builds.wellFormed.listed.mem_iff key child).mp among))
      rw [Option.elim_some, Option.elim_some, Store.rowsFrom, preorder_eq_preorder enough enough']
      exact rowsOf_of_builds wellFormed builds found inside

end Built

end Rows

/-! ## Building the rows -/

/-- A restated tree has been built so far, and the keys that hold references are known. -/
structure Restates (id : TreeId) (normalized : Normalized C) (layout : Layout C) : Prop where
  builds : normalized.tree.Builds id layout
  references : ∀ key, key ∈ normalized.references ↔
    ∃ standing, layout key = some standing ∧ standing.payload.isReference = true

section Visit

variable {id : TreeId} {normalized : Normalized C} {layout : Layout C} {key : Key}
  {above : Option Key} {target : Store C} {decision : Decision C}

theorem restates_empty (id : TreeId) :
    Restates id (⟨Store.empty id, ∅⟩ : Normalized C) fun _ => none where
  builds := Store.builds_empty id {}
  references key := by simp

/-- A new node is added. -/
theorem plants_add (restates : Restates id normalized layout) (room : layout.Room above)
    (payload : Payload C) :
    Plants (Restates id) False (add key above payload) normalized layout [(key, ⟨above, payload⟩)]
      () := by
  refine ⟨fun fresh => ?_, fun impossible => impossible.elim⟩
  have new := (Layout.fresh_cons_iff.mp fresh).1
  obtain ⟨noted, effect, sameTree, noted_iff⟩ : ∃ noted,
      (Edit.when payload.isReference (Edit.modify fun normalized : Normalized C =>
        { normalized with references := normalized.references.insert key })).effect normalized =
          (.ok (), noted) ∧ noted.tree = normalized.tree ∧
      ∀ other, other ∈ noted.references ↔
        (key = other ∧ payload.isReference = true) ∨ other ∈ normalized.references := by
    rw [Edit.effect_when]
    split
    · rename_i isReference
      refine ⟨_, rfl, rfl, fun other => ?_⟩
      change other ∈ normalized.references.insert key ↔ _
      rw [Std.TreeSet.mem_insert, Std.compare_eq_iff_eq, and_iff_left isReference]
    · rename_i notReference
      exact ⟨_, rfl, rfl, fun other => (or_iff_right fun both => notReference both.2).symm⟩
  obtain ⟨builds, references⟩ := restates
  rw [← sameTree] at builds
  obtain ⟨next, inserted, built⟩ := builds.insert new room payload
  refine ⟨{ noted with tree := next }, ?_, built, fun other => ?_⟩
  · have placed : (Edit.ofFunction fun normalized : Normalized C =>
        ((normalized.tree.insert above (.exactly key) payload).1,
          { normalized with
            tree := (normalized.tree.insert above (.exactly key) payload).2 })).effect noted =
        (.ok key, { noted with tree := next }) := by
      rw [Edit.effect_ofFunction, inserted]
    exact (Edit.effect_bind_of_ok effect).trans (Edit.effect_bind_of_ok placed)
  · rw [noted_iff, references, Layout.plant_cons, Layout.plant_nil]
    by_cases same : key = other
    · subst same
      simp [show layout key = none from new]
    · simp [Layout.place_of_ne same, same]

variable [Content C] {index : DonorIndex} {donors : Donors C} {digests : DigestTable}
  (wellFormed : target.WellFormed)
  (restates : ∀ key standing, target.layout key = some standing → ∃ digest,
    digests.nodes[key]? = some digest ∧
      (restate index donors key standing.payload digest).result =
        .ok (decision key standing.payload))

include wellFormed restates

/-- A step adds the row of its item. -/
theorem plants_step {item : Key × Option Key} (placed : target.Placed item)
    (restated : Restates id normalized layout) (room : layout.Room item.2) :
    Plants (Restates id) False (step target.tree index digests donors item) normalized layout
      (rowBy decision target item) (itemsBy decision target item) := by
  obtain ⟨key, above⟩ := item
  obtain ⟨payload, found⟩ := placed
  have read : (target.tree.payload key).result = .ok payload :=
    Buffer.result_payload_of_found (Buffer.result_node_base found)
  obtain ⟨digest, there, decided⟩ := restates key _ found
  have told : (Read.orFail (.nodeNotFound key) digests.nodes[key]?).result = .ok digest :=
    Read.result_orFail_eq_ok_iff.mpr there
  rw [rowBy_of_layout found, ← List.append_nil [_]]
  apply Plants.congr (.bind (plants_add restated room (decision key payload).1) _)
    ((Edit.effect_liftM_bind read).trans ((Edit.effect_liftM_bind told).trans
      (Edit.effect_liftM_bind decided)))
  intro fresh middle restated
  rw [itemsBy_of_layout found]
  split
  · have children := wellFormed.shows.result_children ⟨_, found⟩
    exact (plants_pure restated _).congr (Edit.effect_liftM_bind children)
  · exact plants_pure restated _

/-- A visit adds the rows that the store becomes. -/
theorem plants_visit {root : Key} (isRoot : target.root = some root)
    (restated : Restates id normalized fun _ => none) :
    Plants (Restates id) False
      (depthFirst (step target.tree index digests donors) target.tree.levels (root, none))
      normalized (fun _ => none) (rowsBy decision target) () := by
  have link : ∀ item, target.Placed item → ∀ below ∈ itemsBy decision target item,
      ∃ row ∈ rowBy decision target item, below.2 = some row.1 := by
    rintro ⟨key, above⟩ ⟨payload, found⟩ below inside
    obtain ⟨child, -, rfl⟩ :=
      List.mem_map.mp ((itemsBy_sublist decision target (key, above)).subset inside)
    exact ⟨_, by rw [rowBy_of_layout found]; exact List.mem_singleton_self _, rfl⟩
  rw [rowsBy, isRoot, Option.elim_some]
  exact plants_descending Prod.snd target.Placed
    (fun _ placed _ _ restated room => plants_step wellFormed restates placed restated room)
    (fun _ _ _ inside => placed_of_itemsBy wellFormed inside) link _ _
    ((wellFormed.root root).mp isRoot) restated fun _ => rfl

/-- Normalizing builds the rows that the store becomes. -/
theorem restates_ofTree (told : (index.digestsOf target.tree donors).result = .ok digests) :
    ∃ normalized, (ofTree index donors target.tree).result = .ok normalized ∧
      Restates target.id normalized
        (Layout.plant (fun _ => none) (rowsBy decision target)) := by
  have rootKey : target.tree.rootKey.result = .ok target.root := rfl
  have empty := restates_empty (C := C) target.id
  rw [ofTree, Read.result_bind_of_ok told, Read.result_bind_of_ok rootKey]
  cases found : target.root with
  | none => exact ⟨_, rfl, by rw [rowsBy, found]; exact empty⟩
  | some root =>
      obtain ⟨normalized, visited, restated⟩ :=
        (plants_visit wellFormed restates found empty).places (fresh_rowsBy wellFormed)
      exact ⟨normalized, Read.result_bind_of_ok (Edit.result_toRead_of_ok visited), restated⟩

end Visit

end Normalized

end VersionedTrees
