import Mathlib.Data.List.Nodup
import VersionedTrees.Proofs.Layout.Changes
import VersionedTrees.Proofs.Walk

/-!
# Reading a layout

`Tree.Shows` says that everything a tree can be asked is answered by a layout, and that the tree
knows a bound for its depth. Such a tree reads as one coherent tree (`Tree.Shows.coherent`): its keys
are told once each, and parents and children agree. Two trees that show the same layout answer
everything alike (`Tree.Shows.sameReads`), however they keep their nodes.
-/

namespace VersionedTrees

variable {C : Type}

/-! ## Children in order -/

/-- A list of the children of each key, in key order. -/
structure Layout.ListedBy (layout : Layout C) (next : Key → List Key) : Prop where
  ordered : ∀ key, (next key).Pairwise fun left right => compare left right = .lt
  mem_iff : ∀ key child, child ∈ next key ↔ layout.IsChild child key

section Ordered

variable {α : Type} [Ord α] [Std.TransOrd α] [Std.LawfulEqOrd α]

omit [Std.TransOrd α] in
/-- A list in order shows nothing twice. -/
theorem nodup_of_ordered {keys : List α}
    (ordered : keys.Pairwise fun left right => compare left right = .lt) : keys.Nodup :=
  ordered.imp fun {left right} before same => by
    subst same
    rw [Std.compare_self] at before
    cases before

/-- Two lists of the same in order are the same list. -/
theorem eq_of_ordered {left right : List α}
    (first : left.Pairwise fun left right => compare left right = .lt)
    (second : right.Pairwise fun left right => compare left right = .lt)
    (same : ∀ key, key ∈ left ↔ key ∈ right) : left = right := by
  refine List.Perm.eq_of_pairwise ?_ first second
    ((List.perm_ext_iff_of_nodup (nodup_of_ordered first) (nodup_of_ordered second)).mpr same)
  intro key other _ _ before after
  rw [Std.OrientedOrd.eq_swap, after] at before
  cases before

end Ordered

namespace Layout

variable {layout : Layout C} {next other : Key → List Key} {key top : Key} {line : List Key}
  {levels bound : Nat}

/-- Where two layouts have the same children, these are listed alike. -/
theorem ListedBy.eq_of_isChild_iff {left right : Layout C} {key' : Key} (first : left.ListedBy next)
    (second : right.ListedBy other)
    (same : ∀ child, left.IsChild child key ↔ right.IsChild child key') : next key = other key' := by
  refine eq_of_ordered (first.ordered key) (second.ordered key') fun child => ?_
  rw [first.mem_iff, second.mem_iff, same]

/-- There is one way to list children in key order. -/
theorem ListedBy.unique (first : layout.ListedBy next) (second : layout.ListedBy other) :
    next = other :=
  funext fun _ => first.eq_of_isChild_iff second fun _ => Iff.rfl

/-- No line of a layout is longer than a bound. -/
def DepthAtMost (layout : Layout C) (bound : Nat) : Prop :=
  ∀ key line, layout.Line key line → line.length ≤ bound

/-- Below a key there are no more levels than the bound leaves. -/
theorem ListedBy.exhausts (listed : layout.ListedBy next) (depth : layout.DepthAtMost bound)
    (isLine : layout.Line key line) (enough : bound < levels + line.length) :
    Exhausts next levels key := by
  induction levels generalizing key line with
  | zero =>
      have := depth key line isLine
      omega
  | succ levels inductionHypothesis =>
      intro child inside
      refine inductionHypothesis (.child ((listed.mem_iff key child).mp inside) isLine) ?_
      rw [List.length_cons]
      omega

theorem ListedBy.exhausts_of_holds (listed : layout.ListedBy next) (isTree : layout.IsTree)
    (depth : layout.DepthAtMost bound) (holds : layout.Holds key) (enough : bound ≤ levels) :
    Exhausts next levels key := by
  obtain ⟨line, isLine⟩ := isTree.rooted key holds
  refine listed.exhausts depth isLine ?_
  obtain ⟨above, rfl⟩ := isLine.eq_cons
  rw [List.length_cons]
  omega

/-- A visit that goes on to the children of each key comes to the whole subtree. -/
theorem Within.mem_preorder (within : layout.Within top key)
    (among : ∀ key child, layout.IsChild child key → child ∈ next key)
    (enough : Exhausts next levels top) : key ∈ preorder next levels top := by
  obtain ⟨line, isLine, inside⟩ := within
  induction isLine with
  | root _ =>
      obtain rfl := List.mem_singleton.mp inside
      exact mem_preorder_self enough
  | child isChild _ inductionHypothesis =>
      rcases List.mem_cons.mp inside with rfl | higher
      · exact mem_preorder_self enough
      · exact mem_preorder_next enough (inductionHypothesis higher) (among _ _ isChild)

/-- In pre-order below a key stand keys of its subtree, if children alone follow from each key. -/
theorem IsTree.within_of_mem_preorder (isTree : layout.IsTree)
    (below : ∀ key, ∀ child ∈ next key, layout.IsChild child key) (holds : layout.Holds top)
    (inside : key ∈ preorder next levels top) : layout.Within top key := by
  have closed : ∀ key, layout.Within top key → ∀ child ∈ next key, layout.Within top child :=
    fun key within child among => (below key child among).within within
  exact forall_mem_preorder closed levels (isTree.within_self holds) key inside

/-- In pre-order below a key stand the keys of its subtree. -/
theorem ListedBy.mem_preorder_iff (listed : layout.ListedBy next) (isTree : layout.IsTree)
    (holds : layout.Holds top) (enough : Exhausts next levels top) :
    key ∈ preorder next levels top ↔ layout.Within top key := by
  constructor
  · exact isTree.within_of_mem_preorder (fun key child => (listed.mem_iff key child).mp) holds
  · exact fun within => within.mem_preorder (fun above child => (listed.mem_iff above child).mpr) enough

/-- No key comes twice in pre-order, whichever of the children follow from each key. -/
theorem IsTree.nodup_preorder (isTree : layout.IsTree) (nodup : ∀ key, (next key).Nodup)
    (below : ∀ key, ∀ child ∈ next key, layout.IsChild child key) (holds : layout.Holds top) :
    (preorder next levels top).Nodup := by
  induction levels generalizing top with
  | zero => exact List.nodup_nil
  | succ levels inductionHypothesis =>
      have isChild := below top
      refine List.nodup_cons.mpr ⟨fun again => ?_, List.nodup_flatMap.mpr ⟨?_, ?_⟩⟩
      · obtain ⟨child, among, inside⟩ := List.mem_flatMap.mp again
        exact (isChild child among).not_within isTree
          (isTree.within_of_mem_preorder below (isChild child among).holds inside)
      · exact fun child among => inductionHypothesis (isChild child among).holds
      · refine (nodup top).pairwise_of_forall_ne ?_
        intro left amongLeft right amongRight different key insideLeft insideRight
        have withinLeft :=
          isTree.within_of_mem_preorder below (isChild left amongLeft).holds insideLeft
        have withinRight :=
          isTree.within_of_mem_preorder below (isChild right amongRight).holds insideRight
        -- of two siblings none is below the other
        have apart : ∀ left right, layout.IsChild left top → layout.IsChild right top →
            layout.Within left right → left = right := by
          intro left right first second within
          rcases (within_iff_of_isChild second isTree).mp within with same | higher
          · exact same
          · exact absurd higher (first.not_within isTree)
        rcases withinLeft.total withinRight with within | within
        · exact different (apart left right (isChild left amongLeft) (isChild right amongRight)
            within)
        · exact different (apart right left (isChild right amongRight) (isChild left amongLeft)
            within).symm

/-- No key comes twice in pre-order. -/
theorem ListedBy.nodup_preorder (listed : layout.ListedBy next) (isTree : layout.IsTree)
    (holds : layout.Holds top) : (preorder next levels top).Nodup :=
  isTree.nodup_preorder (fun key => nodup_of_ordered (listed.ordered key))
    (fun key child => (listed.mem_iff key child).mp) holds

end Layout

/-! ## Trees that show a layout -/

namespace Tree

/-- Everything that two trees can be asked about their nodes has the same answer. -/
structure SameReads (left right : Tree C) : Prop where
  root : left.root.result = right.root.result
  rootKey : left.rootKey.result = right.rootKey.result
  node : ∀ key, (left.node key).result = (right.node key).result
  contains : ∀ key, (left.contains key).result = (right.contains key).result
  parent : ∀ key, (left.parent key).result = (right.parent key).result
  children : ∀ key, (left.children key).result = (right.children key).result
  keys : left.keys.result = right.keys.result

/-- All keys can be told, none of them twice, and they are the keys that are in the tree. Parents and
children agree, and only the root has no parent. -/
def Coherent (tree : Tree C) : Prop :=
  ∃ keys, tree.keys.result = .ok keys ∧ keys.Nodup ∧
    (∀ key, (tree.contains key).result = .ok (decide (key ∈ keys))) ∧
    (∀ key parent, (tree.parent key).result = .ok (some parent) ↔
      ∃ children, (tree.children parent).result = .ok children ∧ key ∈ children) ∧
    ∀ key, (tree.parent key).result = .ok none ↔ tree.rootKey.result = .ok (some key)

/-- The children of a key, and none if they cannot be read. -/
def childList (tree : Tree C) (key : Key) : List Key :=
  match (tree.children key).result with
  | .ok children => children
  | .error _ => []

/-- The items below an item of a visit, which is a key that is handed down with its parent. -/
def itemsBelow (tree : Tree C) (item : Key × Option Key) : List (Key × Option Key) :=
  (tree.childList item.1).map (·, some item.1)

/-- What a tree answers is what a layout holds. -/
structure Shows (tree : Tree C) (layout : Layout C) : Prop where
  isTree : layout.IsTree
  depth : layout.DepthAtMost tree.span
  listed : layout.ListedBy tree.childList
  root : ∃ found : Option Key, tree.rootKey.result = .ok found ∧
    tree.root.result =
      .ok (found.bind fun key => (layout key).map fun standing => ⟨key, standing.payload⟩) ∧
    ∀ key, found = some key ↔ layout.IsRoot key
  node : ∀ key, (tree.node key).result =
    .ok ((layout key).map fun standing => ⟨key, standing.payload⟩)
  contains : ∀ key, (tree.contains key).result = .ok (layout key).isSome
  parent : ∀ key, (tree.parent key).result =
    match layout key with
    | none => .error (.nodeNotFound key)
    | some standing => .ok standing.parent
  children : ∀ key, (tree.children key).result =
    if (layout key).isSome then .ok (tree.childList key) else .error (.nodeNotFound key)

namespace Shows

variable {tree left right : Tree C} {layout : Layout C} {key : Key} {levels : Nat}

theorem result_children (shows : tree.Shows layout) (holds : layout.Holds key) :
    (tree.children key).result = .ok (tree.childList key) := by
  rw [shows.children, if_pos (Layout.holds_iff_isSome.mp holds)]

/-- The levels of a walk suffice below every key. -/
theorem exhausts (shows : tree.Shows layout) (holds : layout.Holds key)
    (enough : tree.span ≤ levels) : Exhausts tree.childList levels key :=
  shows.listed.exhausts_of_holds shows.isTree shows.depth holds enough

/-- The keys at and below a key are told in pre-order. -/
theorem result_keysFrom (shows : tree.Shows layout) (holds : layout.Holds key) :
    (tree.keysFrom key).result = .ok (preorder tree.childList tree.span key) := by
  rw [← preorder_eq_of_exhausts (shows.exhausts holds (Nat.le_refl _)) (Nat.le_succ _)]
  exact result_keysWithin layout.Holds (fun _ => shows.result_children)
    (fun above _ below inside => ((shows.listed.mem_iff above below).mp inside).holds) _ _ holds

theorem result_keys_of_isRoot (shows : tree.Shows layout) (isRoot : layout.IsRoot key) :
    tree.keys.result = .ok (preorder tree.childList tree.span key) := by
  obtain ⟨found, same, -, isRoot_iff⟩ := shows.root
  rw [keys, Read.result_bind, same, (isRoot_iff key).mpr isRoot]
  exact shows.result_keysFrom isRoot.holds

theorem result_keys_of_empty (shows : tree.Shows layout) (empty : ∀ key, ¬ layout.IsRoot key) :
    tree.keys.result = .ok [] := by
  obtain ⟨found, same, -, isRoot_iff⟩ := shows.root
  have nothing : found = none := by
    cases found with
    | none => rfl
    | some key => exact absurd ((isRoot_iff key).mp rfl) (empty key)
  rw [keys, Read.result_bind, same, nothing]
  rfl

/-- All keys of a tree are told, each of them once. -/
theorem exists_keys (shows : tree.Shows layout) :
    ∃ keys, tree.keys.result = .ok keys ∧ keys.Nodup ∧ ∀ key, key ∈ keys ↔ layout.Holds key := by
  by_cases found : ∃ root, layout.IsRoot root
  · obtain ⟨root, isRoot⟩ := found
    have enough := shows.exhausts isRoot.holds (Nat.le_refl _)
    refine ⟨_, shows.result_keys_of_isRoot isRoot,
      shows.listed.nodup_preorder shows.isTree isRoot.holds, fun key => ?_⟩
    rw [shows.listed.mem_preorder_iff shows.isTree isRoot.holds enough]
    refine ⟨Layout.Within.holds, fun holds => ?_⟩
    obtain ⟨top, isTop, within⟩ := shows.isTree.exists_root holds
    rwa [shows.isTree.single root top isRoot isTop]
  · have empty : ∀ key, ¬ layout.IsRoot key := fun key isRoot => found ⟨key, isRoot⟩
    refine ⟨[], shows.result_keys_of_empty empty, List.nodup_nil, fun key => ?_⟩
    refine ⟨fun inside => absurd inside List.not_mem_nil, fun holds => ?_⟩
    obtain ⟨top, isTop, -⟩ := shows.isTree.exists_root holds
    exact absurd isTop (empty top)

theorem result_parent_eq_some_iff (shows : tree.Shows layout) {parent : Key} :
    (tree.parent key).result = .ok (some parent) ↔ layout.IsChild key parent := by
  rw [shows.parent, Layout.isChild_iff]
  cases layout key <;> simp

theorem result_parent_eq_none_iff (shows : tree.Shows layout) :
    (tree.parent key).result = .ok none ↔ layout.IsRoot key := by
  rw [shows.parent, Layout.isRoot_iff]
  cases layout key <;> simp

/-- A tree that shows a layout reads as one coherent tree. -/
theorem coherent (shows : tree.Shows layout) : tree.Coherent := by
  obtain ⟨keys, told, nodup, mem_iff⟩ := shows.exists_keys
  refine ⟨keys, told, nodup, fun key => ?_, fun key parent => ?_, fun key => ?_⟩
  · rw [shows.contains, Except.ok.injEq, Bool.eq_iff_iff, decide_eq_true_iff, mem_iff,
      Layout.holds_iff_isSome]
  · rw [shows.result_parent_eq_some_iff]
    constructor
    · intro isChild
      exact ⟨_, shows.result_children (shows.isTree.parent_holds isChild),
        (shows.listed.mem_iff parent key).mpr isChild⟩
    · rintro ⟨children, same, inside⟩
      refine (shows.listed.mem_iff parent key).mp ?_
      rwa [childList, same]
  · obtain ⟨found, same, -, isRoot_iff⟩ := shows.root
    rw [shows.result_parent_eq_none_iff, same, ← isRoot_iff, Except.ok.injEq]

/-- Where two trees have the same children in a subtree they tell the same keys there. The bounds of the
two trees may differ, but both suffice. -/
theorem result_keysFrom_congr {other : Layout C} (first : left.Shows layout)
    (second : right.Shows other) (holds : layout.Holds key) (holds' : other.Holds key)
    (sameChildren : ∀ middle, layout.Within key middle →
      right.childList middle = left.childList middle) :
    (right.keysFrom key).result = (left.keysFrom key).result := by
  have closed : ∀ middle, layout.Within key middle → ∀ below ∈ left.childList middle,
      layout.Within key below := fun middle within below inside =>
    ((first.listed.mem_iff middle below).mp inside).within within
  have enough := first.exhausts holds (Nat.le_max_left left.span right.span)
  have enough' := second.exhausts holds' (Nat.le_max_right left.span right.span)
  rw [first.result_keysFrom holds, second.result_keysFrom holds',
    ← preorder_eq_preorder enough (first.exhausts holds (Nat.le_refl _)),
    ← preorder_eq_preorder enough' (second.exhausts holds' (Nat.le_refl _)),
    preorder_congr (fun middle within => (sameChildren middle within).symm) closed _
      (first.isTree.within_self holds)]

/-- Two trees that show the same layout tell the same keys at and below a key. -/
theorem result_keysFrom_eq (first : left.Shows layout) (second : right.Shows layout)
    (holds : layout.Holds key) : (left.keysFrom key).result = (right.keysFrom key).result :=
  second.result_keysFrom_congr first holds holds fun middle _ =>
    congrFun (first.listed.unique second.listed) middle

/-- Two trees that show the same layout answer everything alike. -/
theorem sameReads (first : left.Shows layout) (second : right.Shows layout) :
    left.SameReads right := by
  have listed : left.childList = right.childList := first.listed.unique second.listed
  obtain ⟨found, sameKey, sameRoot, isRoot_iff⟩ := first.root
  obtain ⟨found', sameKey', sameRoot', isRoot_iff'⟩ := second.root
  have roots : found = found' := Option.ext fun key => by rw [isRoot_iff, isRoot_iff']
  subst roots
  refine ⟨by rw [sameRoot, sameRoot'], by rw [sameKey, sameKey'],
    fun key => by rw [first.node, second.node],
    fun key => by rw [first.contains, second.contains],
    fun key => by rw [first.parent, second.parent],
    fun key => by rw [first.children, second.children, listed], ?_⟩
  by_cases root : ∃ root, layout.IsRoot root
  · obtain ⟨root, isRoot⟩ := root
    rw [first.result_keys_of_isRoot isRoot, second.result_keys_of_isRoot isRoot,
      ← first.result_keysFrom isRoot.holds, ← second.result_keysFrom isRoot.holds]
    exact first.result_keysFrom_eq second isRoot.holds
  · have empty : ∀ key, ¬ layout.IsRoot key := fun key isRoot => root ⟨key, isRoot⟩
    rw [first.result_keys_of_empty empty, second.result_keys_of_empty empty]

end Shows

end Tree

end VersionedTrees
