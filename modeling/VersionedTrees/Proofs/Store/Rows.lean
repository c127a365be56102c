import VersionedTrees.Proofs.Planting
import VersionedTrees.Proofs.Store.Layout

/-!
# The rows of a store

A store is a list of rows: its keys in pre-order with what stands under them. No key comes twice, and
to plant the rows is to build the layout of the store again (`Store.WellFormed.plant_rows`).
-/

namespace VersionedTrees

namespace Store

variable {C β : Type} {store : Store C} {key top : Key} {standing : Standing C} {keys : List Key}

/-- Keys with what stands under them. -/
def rowsOf (store : Store C) (keys : List Key) : List (Layout.Row C) :=
  keys.filterMap fun key => (store.layout key).map (key, ·)

/-- The rows at and below a key, in pre-order. -/
def rowsFrom (store : Store C) (key : Key) : List (Layout.Row C) :=
  store.rowsOf (preorder store.tree.childList store.tree.span key)

/-- The rows strictly below a key, in pre-order. -/
def rowsBelow (store : Store C) (key : Key) : List (Layout.Row C) :=
  store.rowsOf ((store.tree.childList key).flatMap (preorder store.tree.childList store.tree.span))

/-- What is strictly below a key, with the children hung below another key. -/
def copiesBelow (store : Store C) (top parent : Key) : List (Layout.Row C) :=
  (store.tree.childList top).flatMap fun child => (store.layout child).elim [] fun standing =>
    (child, ⟨some parent, standing.payload⟩) :: store.rowsBelow child

/-- All rows of a store, in pre-order. -/
def rows (store : Store C) : List (Layout.Row C) :=
  store.root.elim [] store.rowsFrom

theorem mem_rowsOf_iff :
    (key, standing) ∈ store.rowsOf keys ↔ key ∈ keys ∧ store.layout key = some standing := by
  simp only [rowsOf, List.mem_filterMap, Option.map_eq_some_iff, Prod.mk.injEq]
  constructor
  · rintro ⟨_, inside, _, found, rfl, rfl⟩
    exact ⟨inside, found⟩
  · rintro ⟨inside, found⟩
    exact ⟨key, inside, standing, found, rfl, rfl⟩

/-- If something stands under each of the keys, none is left out. -/
theorem map_fst_rowsOf (holds : ∀ key ∈ keys, store.layout.Holds key) :
    (store.rowsOf keys).map Prod.fst = keys := by
  induction keys with
  | nil => rfl
  | cons key keys inductionHypothesis =>
      obtain ⟨standing, found⟩ := holds key List.mem_cons_self
      rw [rowsOf, List.filterMap_cons_some (by rw [found]; rfl), List.map_cons]
      exact congrArg (key :: ·)
        (inductionHypothesis fun other inside => holds other (List.mem_cons_of_mem _ inside))

/-- What is done for each key by what stands under it is done for each row. -/
theorem flatMap_rowsOf (store : Store C) (keys : List Key) (each : Layout.Row C → List β) :
    (store.rowsOf keys).flatMap each =
      keys.flatMap fun key => (store.layout key).elim [] fun standing => each (key, standing) := by
  induction keys with
  | nil => rfl
  | cons key keys inductionHypothesis =>
      rw [List.flatMap_cons, ← inductionHypothesis, rowsOf, List.filterMap_cons]
      cases store.layout key <;> rfl

theorem rowsOf_flatMap {α : Type} (store : Store C) (items : List α) (keys : α → List Key) :
    store.rowsOf (items.flatMap keys) = items.flatMap fun item => store.rowsOf (keys item) := by
  rw [rowsOf, List.filterMap_flatMap]
  rfl

/-- An item of a visit is a key that is handed down with its parent. -/
def Placed (store : Store C) (item : Key × Option Key) : Prop :=
  ∃ payload, store.layout item.1 = some ⟨item.2, payload⟩

theorem WellFormed.placed_below (wellFormed : store.WellFormed) {item below : Key × Option Key}
    (inside : below ∈ store.tree.itemsBelow item) : store.Placed below := by
  obtain ⟨child, among, rfl⟩ := List.mem_map.mp inside
  exact (wellFormed.listed.mem_iff item.1 child).mp among

/-- A visit that starts from a placed item comes to placed items only. -/
theorem WellFormed.placed_of_mem_preorder (wellFormed : store.WellFormed)
    {item below : Key × Option Key} {levels : Nat} (start : store.Placed item)
    (inside : below ∈ preorder store.tree.itemsBelow levels item) : store.Placed below := by
  have closed : ∀ item, store.Placed item → ∀ below ∈ store.tree.itemsBelow item, store.Placed below :=
    fun _ _ _ inside => wellFormed.placed_below inside
  exact forall_mem_preorder closed levels start below inside

/-- The keys of the items of a visit are in pre-order. -/
theorem map_fst_preorder_items (store : Store C) (levels : Nat) (item : Key × Option Key) :
    (preorder store.tree.itemsBelow levels item).map Prod.fst =
      preorder store.tree.childList levels item.1 := by
  refine map_preorder Prod.fst (fun item => ?_) levels item
  rw [Tree.itemsBelow, List.map_map]
  exact (List.map_id _).symm

/-- What is done for each item of a visit is done for each row. -/
theorem flatMap_preorder_items (store : Store C) (each : Layout.Row C → List β) (levels : Nat)
    (item : Key × Option Key) :
    ((preorder store.tree.itemsBelow levels item).flatMap fun item =>
        (store.layout item.1).elim [] fun standing => each (item.1, standing)) =
      (store.rowsOf (preorder store.tree.childList levels item.1)).flatMap each := by
  rw [flatMap_rowsOf, ← store.map_fst_preorder_items, List.flatMap_map]

/-- The row of a key comes first, and then, child by child, those below it. -/
theorem rowsOf_preorder_of_layout (found : store.layout key = some standing) (levels : Nat) :
    store.rowsOf (preorder store.tree.childList (levels + 1) key) =
      (key, standing) :: (store.tree.childList key).flatMap fun child =>
        store.rowsOf (preorder store.tree.childList levels child) := by
  rw [preorder, rowsOf, List.filterMap_cons_some (by rw [found]; rfl)]
  exact congrArg _ (store.rowsOf_flatMap _ _)

/-- The row of a key comes first, and those below it follow. -/
theorem WellFormed.rowsFrom_eq (wellFormed : store.WellFormed)
    (found : store.layout key = some standing) :
    store.rowsFrom key = (key, standing) :: store.rowsBelow key := by
  have enough := wellFormed.shows.exhausts ⟨standing, found⟩ (Nat.le_refl _)
  have more := preorder_eq_of_exhausts enough (Nat.le_succ _)
  rw [rowsFrom, ← more, rowsOf_preorder_of_layout found, rowsBelow, rowsOf_flatMap]

section WellFormed

variable (wellFormed : store.WellFormed)
include wellFormed

theorem WellFormed.mem_rowsFrom_iff (holds : store.layout.Holds top) :
    (key, standing) ∈ store.rowsFrom top ↔
      store.layout.Within top key ∧ store.layout key = some standing := by
  rw [rowsFrom, mem_rowsOf_iff, wellFormed.listed.mem_preorder_iff wellFormed.isTree holds
    (wellFormed.shows.exhausts holds (Nat.le_refl _))]

theorem WellFormed.map_fst_rowsFrom (holds : store.layout.Holds top) :
    (store.rowsFrom top).map Prod.fst = preorder store.tree.childList store.tree.span top := by
  apply map_fst_rowsOf
  intro key inside
  exact ((wellFormed.listed.mem_preorder_iff wellFormed.isTree holds
    (wellFormed.shows.exhausts holds (Nat.le_refl _))).mp inside).holds

theorem WellFormed.nodup_rowsFrom (holds : store.layout.Holds top) :
    ((store.rowsFrom top).map Prod.fst).Nodup := by
  rw [wellFormed.map_fst_rowsFrom holds]
  exact wellFormed.listed.nodup_preorder wellFormed.isTree holds

theorem WellFormed.mem_map_rowsFrom_iff (holds : store.layout.Holds top) :
    key ∈ (store.rowsFrom top).map Prod.fst ↔ store.layout.Within top key := by
  rw [wellFormed.map_fst_rowsFrom holds]
  exact wellFormed.listed.mem_preorder_iff wellFormed.isTree holds
    (wellFormed.shows.exhausts holds (Nat.le_refl _))

/-- Strictly below a key stand its children, each with what is below it. -/
theorem WellFormed.rowsBelow_eq {levels : Nat} (enough : store.tree.span ≤ levels) :
    store.rowsBelow key = (store.tree.childList key).flatMap fun child =>
      store.rowsOf (preorder store.tree.childList levels child) := by
  rw [rowsBelow, rowsOf_flatMap]
  apply List.flatMap_congr
  intro child inside
  have holds := ((wellFormed.listed.mem_iff key child).mp inside).holds
  rw [preorder_eq_of_exhausts (wellFormed.shows.exhausts holds (Nat.le_refl _)) enough]

/-- Below the key itself the copies are the rows. -/
theorem WellFormed.copiesBelow_self : store.copiesBelow key key = store.rowsBelow key := by
  rw [copiesBelow, wellFormed.rowsBelow_eq (Nat.le_refl _)]
  apply List.flatMap_congr
  intro child inside
  obtain ⟨payload, found⟩ := (wellFormed.listed.mem_iff key child).mp inside
  rw [found, Option.elim_some]
  exact (wellFormed.rowsFrom_eq found).symm

/-- Strictly below a key stand the keys of its subtree but for the key itself. -/
theorem WellFormed.mem_rowsBelow_iff (holds : store.layout.Holds top) :
    (key, standing) ∈ store.rowsBelow top ↔
      top ≠ key ∧ store.layout.Within top key ∧ store.layout key = some standing := by
  obtain ⟨first, found⟩ := holds
  have nodup := wellFormed.nodup_rowsFrom ⟨first, found⟩
  rw [← wellFormed.mem_rowsFrom_iff ⟨first, found⟩, wellFormed.rowsFrom_eq found] at *
  obtain ⟨apart, -⟩ := List.nodup_cons.mp nodup
  rw [List.mem_cons, Prod.mk.injEq]
  constructor
  · intro below
    refine ⟨?_, .inr below⟩
    rintro rfl
    exact apart (List.mem_map.mpr ⟨_, below, rfl⟩)
  · rintro ⟨different, ⟨rfl, -⟩ | below⟩
    · exact absurd rfl different
    · exact below

/-- Copies are made of what stands strictly below the top, and only the children change their
parent. -/
theorem WellFormed.mem_copiesBelow_iff {parent : Key} :
    (key, standing) ∈ store.copiesBelow top parent ↔
      ∃ above payload, store.layout key = some ⟨some above, payload⟩ ∧
        store.layout.Within top above ∧
        standing = ⟨some (if above = top then parent else above), payload⟩ := by
  have isTree := wellFormed.isTree
  rw [copiesBelow, List.mem_flatMap]
  constructor
  · rintro ⟨child, among, inside⟩
    have isChild := (wellFormed.listed.mem_iff top child).mp among
    have upper := isTree.within_self (isTree.parent_holds isChild)
    have holds := isChild.holds
    have apart := isChild.not_within isTree
    have first := isChild.within upper
    obtain ⟨payload, found⟩ := isChild
    rw [found, Option.elim_some] at inside
    rcases List.mem_cons.mp inside with same | below
    · cases same
      exact ⟨top, payload, found, upper, by rw [if_pos rfl]⟩
    · obtain ⟨different, within, found'⟩ := (wellFormed.mem_rowsBelow_iff holds).mp below
      rcases within.holds.isRoot_or_isChild with isRoot | ⟨above, isChild⟩
      · exact absurd (isRoot.within_iff.mp within) different
      · rcases (Layout.within_iff_of_isChild isChild isTree).mp within with same | lower
        · exact absurd same different
        · obtain ⟨payload', found''⟩ := isChild
          have indirect : above ≠ top := by
            rintro rfl
            exact apart lower
          refine ⟨above, payload', found'', first.trans lower, ?_⟩
          rw [if_neg indirect]
          exact Option.some.inj (found'.symm.trans found'')
  · rintro ⟨above, payload, found, within, rfl⟩
    have isChild : store.layout.IsChild key above := ⟨payload, found⟩
    by_cases direct : above = top
    · subst direct
      refine ⟨key, (wellFormed.listed.mem_iff above key).mpr isChild, ?_⟩
      rw [found, if_pos rfl]
      exact List.mem_cons_self
    · obtain ⟨child, isFirst, lower⟩ := within.exists_child isTree (Ne.symm direct)
      have different : child ≠ key := by
        rintro rfl
        exact isChild.not_within isTree lower
      refine ⟨child, (wellFormed.listed.mem_iff top child).mpr isFirst, ?_⟩
      have below : (key, ⟨some above, payload⟩) ∈ store.rowsBelow child :=
        (wellFormed.mem_rowsBelow_iff isFirst.holds).mpr ⟨different, isChild.within lower, found⟩
      obtain ⟨payload', found'⟩ := isFirst
      rw [found', if_neg direct]
      exact List.mem_cons_of_mem _ below

/-- The rows are what the layout holds. -/
theorem WellFormed.mem_rows_iff :
    (key, standing) ∈ store.rows ↔ store.layout key = some standing := by
  rw [rows]
  cases found : store.root with
  | none => simp [wellFormed.layout_of_no_root found]
  | some root =>
      have isRoot := (wellFormed.root root).mp found
      rw [Option.elim_some, wellFormed.mem_rowsFrom_iff isRoot.holds, and_iff_right_iff_imp]
      intro there
      obtain ⟨top, isTop, within⟩ := wellFormed.isTree.exists_root ⟨_, there⟩
      rwa [wellFormed.isTree.single root top isRoot isTop]

/-- The keys of the rows are those that something stands under. -/
theorem WellFormed.mem_map_rows_iff :
    key ∈ store.rows.map Prod.fst ↔ store.layout.Holds key := by
  rw [List.mem_map]
  constructor
  · rintro ⟨row, inside, rfl⟩
    exact ⟨row.2, wellFormed.mem_rows_iff.mp inside⟩
  · rintro ⟨standing, found⟩
    exact ⟨(key, standing), wellFormed.mem_rows_iff.mpr found, rfl⟩

/-- In reverse, the keys of the rows come after their children. -/
theorem WellFormed.belowFirst_rows :
    BelowFirst store.tree.childList (fun _ => False) (store.rows.map Prod.fst).reverse := by
  rw [rows]
  cases found : store.root with
  | none => trivial
  | some root =>
      have isRoot := (wellFormed.root root).mp found
      rw [Option.elim_some, wellFormed.map_fst_rowsFrom isRoot.holds]
      exact belowFirst_reverse_preorder
        (wellFormed.shows.exhausts isRoot.holds (Nat.le_refl _)) _

theorem WellFormed.nodup_rows : (store.rows.map Prod.fst).Nodup := by
  rw [rows]
  cases found : store.root with
  | none => exact List.nodup_nil
  | some root => exact wellFormed.nodup_rowsFrom ((wellFormed.root root).mp found).holds

/-- A store tells the keys of its rows. -/
theorem WellFormed.result_keys : store.tree.keys.result = .ok (store.rows.map Prod.fst) := by
  rw [rows]
  cases found : store.root with
  | none =>
      have empty : ∀ key, ¬ store.layout.IsRoot key := fun key isRoot =>
        absurd (wellFormed.layout_of_no_root found key) (Layout.holds_iff_ne_none.mp isRoot.holds)
      rw [wellFormed.shows.result_keys_of_empty empty]
      rfl
  | some root =>
      have isRoot := (wellFormed.root root).mp found
      rw [wellFormed.shows.result_keys_of_isRoot isRoot, Option.elim_some,
        wellFormed.map_fst_rowsFrom isRoot.holds]

section Visits

variable {m : Type → Type} [Monad m] [LawfulMonad m] [MonadLiftT Read m] [LawfulMonadLiftT Read m]

/-- A visit from a key goes through its subtree in pre-order. -/
theorem WellFormed.visitFrom_eq (visit : Key → m Unit)
    (holds : store.layout.Holds top) : store.tree.visitFrom visit top =
      (preorder store.tree.childList store.tree.levels top).forM visit := by
  refine depthFirst_eq_forM store.layout.Holds ?_ ?_ _ _ holds
  · intro key holds
    rw [Store.children_eq_pure holds, liftM_pure, pure_bind]
  · exact fun key _ below inside => ((wellFormed.listed.mem_iff key below).mp inside).holds

/-- A visit of a store goes through the keys of its rows. -/
theorem WellFormed.visit_eq (visit : Key → m Unit) :
    store.tree.visit visit = (store.rows.map Prod.fst).forM visit := by
  have rootKey : store.tree.rootKey = pure store.root := rfl
  rw [Tree.visit, rootKey, rows, liftM_pure, pure_bind]
  cases found : store.root with
  | none => rfl
  | some root =>
      have holds := ((wellFormed.root root).mp found).holds
      rw [Option.elim_some, wellFormed.map_fst_rowsFrom holds,
        ← preorder_eq_of_exhausts (wellFormed.shows.exhausts holds (Nat.le_refl _)) (Nat.le_succ _)]
      exact wellFormed.visitFrom_eq visit holds

end Visits

/-- The rows of a store build its layout. -/
theorem WellFormed.plant_rows : Layout.plant (fun _ => none) store.rows = store.layout := by
  funext key
  ext standing
  rw [Layout.plant_empty_eq_some_iff (Layout.fresh_empty_iff.mpr wellFormed.nodup_rows),
    wellFormed.mem_rows_iff]

/-- In pre-order every node comes after its parent. -/
theorem WellFormed.grows_preorder {layout : Layout C} {above : Option Key} {payload : Payload C}
    {levels : Nat} (found : store.layout key = some ⟨above, payload⟩) (room : layout.Room above)
    (fresh : layout.Fresh (store.rowsOf (preorder store.tree.childList levels key))) :
    layout.Grows (store.rowsOf (preorder store.tree.childList levels key)) := by
  induction levels generalizing key above payload layout with
  | zero => trivial
  | succ levels inductionHypothesis =>
      rw [rowsOf_preorder_of_layout found] at fresh ⊢
      obtain ⟨new, fresh⟩ := Layout.fresh_cons_iff.mp fresh
      refine ⟨room, Layout.grows_flatMap ?_ ⟨_, Layout.place_self _ _ _⟩ fresh⟩
      intro child inside layout room fresh
      obtain ⟨payload, below⟩ := (wellFormed.listed.mem_iff key child).mp inside
      exact inductionHypothesis below room fresh

/-- The rows of a store can be built in their order. -/
theorem WellFormed.grows_rows : Layout.Grows (fun _ => none) store.rows := by
  have fresh : Layout.Fresh (fun _ => none) store.rows :=
    Layout.fresh_empty_iff.mpr wellFormed.nodup_rows
  rw [rows] at fresh ⊢
  cases root : store.root with
  | none => trivial
  | some top =>
      rw [root] at fresh
      obtain ⟨payload, found⟩ := (wellFormed.root top).mp root
      exact wellFormed.grows_preorder found (fun _ => rfl) fresh

/-- In a list of its rows, the parent of a key comes before it. -/
theorem WellFormed.room_of_split {done rest : List (Layout.Row C)} {row : Layout.Row C}
    (split : store.rows = done ++ row :: rest) :
    (row.2.parent = none → done = []) ∧
      ∀ parent, row.2.parent = some parent → parent ∈ done.map Prod.fst := by
  have grows := wellFormed.grows_rows
  have nodup := wellFormed.nodup_rows
  rw [split] at grows nodup
  rw [List.map_append] at nodup
  have fresh : Layout.Fresh (fun _ => none) done :=
    Layout.fresh_empty_iff.mpr (List.nodup_append.mp nodup).1
  have room := (Layout.grows_append_iff.mp grows).2.1
  constructor
  · intro parentless
    rw [parentless] at room
    cases done with
    | nil => rfl
    | cons first done =>
        have holds := (Layout.holds_plant_empty_iff fresh).mpr List.mem_cons_self
        exact absurd (room first.1) (Layout.holds_iff_ne_none.mp holds)
  · intro parent below
    rw [below] at room
    exact (Layout.holds_plant_empty_iff fresh).mp room

/-- The first row is that of the root. -/
theorem WellFormed.isRoot_of_split {rest : List (Layout.Row C)} {row : Layout.Row C}
    (split : store.rows = row :: rest) : store.layout.IsRoot row.1 := by
  obtain ⟨key, parent, payload⟩ := row
  have found : store.layout key = some ⟨parent, payload⟩ :=
    wellFormed.mem_rows_iff.mp (split ▸ List.mem_cons_self)
  have split : store.rows = [] ++ (key, ⟨parent, payload⟩) :: rest := split
  cases parent with
  | none => exact ⟨payload, found⟩
  | some parent =>
      exact absurd ((wellFormed.room_of_split split).2 parent rfl) List.not_mem_nil

/-- A row in the list stands under its key. -/
theorem WellFormed.layout_of_split {done rest : List (Layout.Row C)} {row : Layout.Row C}
    (split : store.rows = done ++ row :: rest) : store.layout row.1 = some row.2 :=
  wellFormed.mem_rows_iff.mp (split ▸ List.mem_append_right _ List.mem_cons_self)

/-- The keys before a row in the list are with each key its parent. -/
theorem WellFormed.parent_mem_of_split {done rest : List (Layout.Row C)} {parent : Key}
    (split : store.rows = done ++ rest) (inside : key ∈ done.map Prod.fst)
    (isChild : store.layout.IsChild key parent) : parent ∈ done.map Prod.fst := by
  obtain ⟨⟨above, standing⟩, among, same⟩ := List.mem_map.mp inside
  obtain rfl : above = key := same
  obtain ⟨before, after, rfl⟩ := List.append_of_mem among
  have found := wellFormed.mem_rows_iff.mp (split ▸ List.mem_append_left _ among)
  obtain ⟨payload, below⟩ := isChild
  obtain rfl : standing = _ := Option.some.inj (found.symm.trans below)
  have split : store.rows = before ++ (above, ⟨some parent, payload⟩) :: (after ++ rest) := by
    rw [split, List.append_assoc, List.cons_append]
  rw [List.map_append]
  exact List.mem_append_left _ ((wellFormed.room_of_split split).2 parent rfl)

/-- The keys before a row in the list are with each key all keys above it. -/
theorem WellFormed.mem_of_within_of_split {done rest : List (Layout.Row C)}
    (split : store.rows = done ++ rest) (inside : key ∈ done.map Prod.fst)
    (within : store.layout.Within top key) : top ∈ done.map Prod.fst := by
  have holds := within.holds
  revert inside within
  refine wellFormed.isTree.induction key holds ?_ ?_
  · intro key isRoot inside within
    rwa [isRoot.within_iff.mp within]
  · intro key parent isChild _ inductionHypothesis inside within
    rcases (Layout.within_iff_of_isChild isChild wellFormed.isTree).mp within with rfl | higher
    · exact inside
    · exact inductionHypothesis (wellFormed.parent_mem_of_split split inside isChild) higher

/-- A layout takes the next row of a store where the rows before have the parents they have in the
store, since then the parent of the next one is below none but the keys above it. -/
theorem WellFormed.accepts_of_split {layout : Layout C} {done rest : List (Layout.Row C)}
    {row : Layout.Row C} (split : store.rows = done ++ row :: rest) (isTree : layout.IsTree)
    (sameParent : ∀ key ∈ done.map Prod.fst,
      (layout key).map (·.parent) = (store.layout key).map (·.parent))
    (roots : done = [] → ∀ key, layout.IsRoot key → store.layout.IsRoot key) :
    layout.Accepts row.1 row.2.parent := by
  obtain ⟨key, parent, payload⟩ := row
  have found : store.layout key = some ⟨parent, payload⟩ := wellFormed.layout_of_split split
  obtain ⟨first, later⟩ := wellFormed.room_of_split split
  cases parent with
  | none =>
      have roots := roots (first rfl)
      by_cases empty : ∀ other, layout other = none
      · exact .inl empty
      · obtain ⟨other, held⟩ := not_forall.mp empty
        obtain ⟨root, isRoot, -⟩ := isTree.exists_root (Layout.holds_iff_ne_none.mpr held)
        rw [wellFormed.isTree.single root key (roots root isRoot) ⟨payload, found⟩] at isRoot
        exact .inr isRoot
  | some parent =>
      have inside := later parent rfl
      have isChild : store.layout.IsChild key parent := ⟨payload, found⟩
      have held := wellFormed.isTree.parent_holds isChild
      have aligned : layout.Aligned store.layout (· ∈ done.map Prod.fst) :=
        ⟨sameParent, fun _ _ => wellFormed.parent_mem_of_split split⟩
      refine ⟨?_, ?_⟩
      · have isSome := congrArg Option.isSome (sameParent parent inside)
        rw [Option.isSome_map, Option.isSome_map] at isSome
        rw [Layout.holds_iff_isSome, isSome, ← Layout.holds_iff_isSome]
        exact held
      · rw [aligned.within_iff isTree wellFormed.isTree inside held]
        exact isChild.not_within wellFormed.isTree

/-- Rows that build the layout of a store are its rows, maybe in another order. -/
theorem WellFormed.rows_perm {rows : List (Layout.Row C)} (fresh : Layout.Fresh (fun _ => none) rows)
    (same : store.layout = Layout.plant (fun _ => none) rows) : store.rows.Perm rows := by
  have nodup := Layout.fresh_empty_iff.mp fresh
  apply (List.perm_ext_iff_of_nodup (.of_map _ wellFormed.nodup_rows) (.of_map _ nodup)).mpr
  rintro ⟨key, standing⟩
  rw [wellFormed.mem_rows_iff, same, Layout.plant_empty_eq_some_iff fresh]

end WellFormed

end Store

end VersionedTrees
