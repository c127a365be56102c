import VersionedTrees.Proofs.Key.Pairing
import VersionedTrees.Proofs.Store.Reachable
import VersionedTrees.Proofs.View.Reads
import VersionedTrees.View.Basic

/-!
# What a renamed view shows

A renamed view of a tree asks for the node of a back key, and gives what it finds the front key. The
walk over it goes from parents to children, and so it ends at every node that has no front key: it
comes to the nodes that have one together with everything above them (`Store.shownAs?`), in the order
of the tree. The view of an empty front over the same tree translates in the other direction and
shows the same (`View.renamed_shows_mapped_part`).
-/

namespace VersionedTrees

variable {C : Type}

/-- The front key of a node that is mapped together with everything above it. -/
def Store.shownAs? (store : Store C) (keys : KeyMap) (key : Key) : Option Key :=
  if (store.lineage key).all fun above => (keys.front? above).isSome then keys.front? key else none

namespace Tree

/-- Two trees have the same root key and show the same keys, with the same nodes, parents and children.
Nothing is said of how they refuse other keys. -/
structure ShowsAlike (left right : Tree C) : Prop where
  rootKey : left.rootKey.result = right.rootKey.result
  node : ∀ key, (left.node key).result = (right.node key).result
  contains : ∀ key, (left.contains key).result = (right.contains key).result
  parent : ∀ key, (left.contains key).result = .ok true →
    (left.parent key).result = (right.parent key).result
  children : ∀ key, (left.contains key).result = .ok true →
    (left.children key).result = (right.children key).result

variable {inner : Tree C} {layout : Layout C} {keys : KeyMap} {key back : Key}
  {standing : Standing C}

/-! ## One read of a renamed view -/

theorem result_node_renamed_of_none (inner : Tree C) (unpaired : keys.back? key = none) :
    ((inner.renamed keys).node key).result = .ok none := by
  change (renamed.node inner keys key).result = _
  rw [renamed.node, unpaired]
  rfl

namespace Shows

variable (shows : inner.Shows layout)
include shows

/-- The node under a front key is what stands under its back key. -/
theorem result_node_renamed (paired : keys.back? key = some back) :
    ((inner.renamed keys).node key).result =
      .ok ((layout back).map fun standing => ⟨key, standing.payload⟩) := by
  change (renamed.node inner keys key).result = _
  rw [renamed.node, paired]
  refine (Read.result_bind_of_ok (shows.node back)).trans ?_
  cases layout back <;> rfl

theorem result_contains_renamed (keys : KeyMap) (key : Key) :
    ((inner.renamed keys).contains key).result = .ok ((keys.back? key).bind layout).isSome := by
  change ((inner.renamed keys).node key >>= fun node => pure node.isSome).result = _
  cases paired : keys.back? key with
  | none => exact Read.result_bind_of_ok (result_node_renamed_of_none inner paired)
  | some back =>
      rw [Read.result_bind_of_ok (shows.result_node_renamed paired)]
      cases found : layout back <;> simp [found]

/-- A renamed view shows the front keys of the nodes. -/
theorem contains_renamed_iff : ((inner.renamed keys).contains key).result = .ok true ↔
    ∃ back, keys.back? key = some back ∧ layout.Holds back := by
  rw [shows.result_contains_renamed, Except.ok.injEq, Option.isSome_iff_exists]
  constructor
  · rintro ⟨standing, found⟩
    obtain ⟨back, paired, found⟩ := Option.bind_eq_some_iff.mp found
    exact ⟨back, paired, standing, found⟩
  · rintro ⟨back, paired, standing, found⟩
    exact ⟨standing, Option.bind_eq_some_iff.mpr ⟨back, paired, found⟩⟩

theorem result_parent_renamed (paired : keys.back? key = some back)
    (found : layout back = some standing) :
    ((inner.renamed keys).parent key).result = .ok (standing.parent.bind keys.front?) := by
  have above : (inner.parent back).result = .ok standing.parent := by rw [shows.parent, found]
  have asked : (renamed.backKey keys key).result = .ok back :=
    Read.result_orFail_eq_ok_iff.mpr paired
  exact (Read.result_bind_of_ok asked).trans (Read.result_bind_of_ok above)

theorem result_children_renamed (paired : keys.back? key = some back)
    (holds : layout.Holds back) : ((inner.renamed keys).children key).result =
      .ok ((inner.childList back).filterMap keys.front?) := by
  have asked : (renamed.backKey keys key).result = .ok back :=
    Read.result_orFail_eq_ok_iff.mpr paired
  exact (Read.result_bind_of_ok asked).trans (Read.result_bind_of_ok (shows.result_children holds))

theorem childList_renamed (paired : keys.back? key = some back) :
    (inner.renamed keys).childList key = (inner.childList back).filterMap keys.front? := by
  by_cases holds : layout.Holds back
  · rw [childList, shows.result_children_renamed paired holds]
  · have failed : (inner.children back).result = .error (.nodeNotFound back) := by
      rw [shows.children, Layout.not_holds_iff.mp holds]
      rfl
    have asked : (renamed.backKey keys key).result = .ok back :=
      Read.result_orFail_eq_ok_iff.mpr paired
    have refused : ((inner.renamed keys).children key).result = .error (.nodeNotFound back) :=
      (Read.result_bind_of_ok asked).trans (Read.result_bind_of_error failed)
    rw [childList, childList, refused, failed]
    rfl

/-- The root key is the front key of the root, if it has one. -/
theorem result_rootKey_renamed {root : Option Key} (found : inner.rootKey.result = .ok root) :
    (inner.renamed keys).rootKey.result = .ok (root.bind keys.front?) := by
  obtain ⟨root', same, node, isRoot⟩ := shows.root
  obtain rfl := Except.ok.inj (found.symm.trans same)
  cases root with
  | none =>
      have shown : (renamed.rootNode inner keys).result = .ok none := Read.result_bind_of_ok node
      exact Read.result_bind_of_ok shown
  | some root =>
      obtain ⟨standing, there⟩ := ((isRoot root).mp rfl).holds
      rw [Option.bind_some, there] at node
      have shown : (renamed.rootNode inner keys).result =
          .ok ((keys.front? root).map (⟨·, standing.payload⟩)) := Read.result_bind_of_ok node
      refine (Read.result_bind_of_ok shown).trans ?_
      cases mapped : keys.front? root <;> simp [mapped]

/-- In a renamed view a key is a child of another exactly when the other is its parent. -/
theorem renamed_links (agree : keys.Mutual) (parent child : Key) :
    (∃ children, ((inner.renamed keys).children parent).result = .ok children ∧ child ∈ children) ↔
      ((inner.renamed keys).parent child).result = .ok (some parent) := by
  constructor
  · rintro ⟨children, told, inside⟩
    obtain ⟨back, paired, told⟩ := Read.result_bind_eq_ok told
    obtain ⟨below, listed, told⟩ := Read.result_bind_eq_ok told
    cases told
    obtain ⟨lower, among, shown⟩ := List.mem_filterMap.mp inside
    rw [renamed.backKey, Read.result_orFail_eq_ok_iff] at paired
    rw [← (show inner.childList back = below by rw [childList, listed]), shows.listed.mem_iff]
      at among
    obtain ⟨payload, found⟩ := among
    rw [shows.result_parent_renamed ((agree child lower).mpr shown) found, Option.bind_some,
      (agree parent back).mp paired]
  · intro told
    obtain ⟨lower, paired, told⟩ := Read.result_bind_eq_ok told
    obtain ⟨above, found, told⟩ := Read.result_bind_eq_ok told
    rw [renamed.backKey, Read.result_orFail_eq_ok_iff] at paired
    obtain ⟨back, rfl, shown⟩ := Option.bind_eq_some_iff.mp (Except.ok.inj told)
    rw [shows.result_parent_eq_some_iff] at found
    refine ⟨_, shows.result_children_renamed ((agree parent back).mpr shown)
      (shows.isTree.parent_holds found), List.mem_filterMap.mpr ⟨lower, ?_, ?_⟩⟩
    · exact (shows.listed.mem_iff back lower).mpr found
    · exact (agree child lower).mp paired

end Shows

end Tree

/-! ## The walk -/

namespace Store

variable {store : Store C} {keys : KeyMap} {key parent name : Key}

theorem front?_of_shownAs? (shown : store.shownAs? keys key = some name) :
    keys.front? key = some name := by
  rw [shownAs?] at shown
  split at shown
  · exact shown
  · cases shown

theorem shownAs?_of_isRoot (isRoot : store.layout.IsRoot key) :
    store.shownAs? keys key = keys.front? key := by
  rw [shownAs?, lineage_eq (.root isRoot)]
  cases shown : keys.front? key <;> simp [shown]

/-- Below a node that is shown, the nodes with front keys are shown; below another one, none is. -/
theorem shownAs?_of_isChild (isTree : store.layout.IsTree) (isChild : store.layout.IsChild key parent) :
    store.shownAs? keys key =
      if (store.shownAs? keys parent).isSome then keys.front? key else none := by
  obtain ⟨line, isLine⟩ := isTree.rooted parent (isTree.parent_holds isChild)
  rw [shownAs?, shownAs?, lineage_eq isLine, lineage_eq (.child isChild isLine), List.all_cons]
  obtain ⟨above, rfl⟩ := isLine.eq_cons
  rw [List.all_cons]
  cases keys.front? key <;> cases keys.front? parent <;> simp

variable (wellFormed : store.WellFormed) (agree : keys.Mutual)
include wellFormed

/-- The children of a node that is shown are its children with front keys. -/
theorem childList_renamed_of_shownAs? (agree : keys.Mutual)
    (shown : store.shownAs? keys key = some name) :
    (store.tree.renamed keys).childList name =
      (store.tree.childList key).filterMap (store.shownAs? keys) := by
  have paired : keys.back? name = some key := (agree name key).mpr (front?_of_shownAs? shown)
  rw [wellFormed.shows.childList_renamed paired]
  refine List.filterMap_congr fun child inside => ?_
  have isChild := (wellFormed.listed.mem_iff key child).mp inside
  rw [shownAs?_of_isChild wellFormed.isTree isChild, shown]
  rfl

/-- Below a node that is not shown nothing is. -/
theorem shownAs?_below_of_none (hidden : store.shownAs? keys key = none) :
    ∀ child ∈ store.tree.childList key, store.shownAs? keys child = none := by
  intro child inside
  have isChild := (wellFormed.listed.mem_iff key child).mp inside
  rw [shownAs?_of_isChild wellFormed.isTree isChild, hidden]
  rfl

include agree

/-- Below a front key that stands for a node which is shown, the walk comes to the nodes that are. -/
theorem result_keysFrom_renamed (shown : store.shownAs? keys key = some name)
    (holds : store.layout.Holds key) : ((store.tree.renamed keys).keysFrom name).result =
      .ok ((preorder store.tree.childList store.size key).filterMap (store.shownAs? keys)) := by
  have shows := wellFormed.shows
  let view := store.tree.renamed keys
  let reached : Key → Prop := fun name =>
    ∃ key, store.shownAs? keys key = some name ∧ store.layout.Holds key
  have reads : ∀ name, reached name → (view.children name).result = .ok (view.childList name) := by
    rintro name ⟨key, shown, holds⟩
    have paired : keys.back? name = some key := (agree name key).mpr (front?_of_shownAs? shown)
    rw [shows.result_children_renamed paired holds, shows.childList_renamed paired]
  have closed : ∀ name, reached name → ∀ below ∈ view.childList name, reached below := by
    rintro name ⟨key, shown, holds⟩ below inside
    rw [childList_renamed_of_shownAs? wellFormed agree shown] at inside
    obtain ⟨child, among, shown⟩ := List.mem_filterMap.mp inside
    exact ⟨child, shown, ((wellFormed.listed.mem_iff key child).mp among).holds⟩
  have walked := Tree.result_keysWithin reached reads closed (store.size + 1) name ⟨key, shown, holds⟩
  have cut := preorder_eq_filterMap
    (fun key name shown => childList_renamed_of_shownAs? wellFormed agree shown)
    (fun key hidden => shownAs?_below_of_none wellFormed hidden) (store.size + 1) shown
  have enough := preorder_eq_of_exhausts (shows.exhausts holds (Nat.le_refl _))
    (Nat.le_succ store.size)
  exact walked.trans (congrArg Except.ok (cut.trans (congrArg (List.filterMap _) enough)))

/-- The walk over a renamed view comes to the nodes that are mapped with everything above them, in the
order of the store. -/
theorem result_keys_renamed : ∃ all, store.tree.keys.result = .ok all ∧
    (store.tree.renamed keys).keys.result = .ok (all.filterMap (store.shownAs? keys)) := by
  have shows := wellFormed.shows
  have found : (store.tree.renamed keys).rootKey.result = .ok (store.root.bind keys.front?) :=
    shows.result_rootKey_renamed rfl
  cases root : store.root with
  | none =>
      rw [root] at found
      refine ⟨[], shows.result_keys_of_empty fun key isRoot => ?_, Read.result_bind_of_ok found⟩
      cases root.symm.trans ((wellFormed.root key).mpr isRoot)
  | some top =>
      rw [root, Option.bind_some] at found
      have isRoot := (wellFormed.root top).mp root
      have shown : store.shownAs? keys top = keys.front? top := shownAs?_of_isRoot isRoot
      refine ⟨_, shows.result_keys_of_isRoot isRoot, (Read.result_bind_of_ok found).trans ?_⟩
      cases mapped : keys.front? top with
      | none =>
          have nothing := filterMap_preorder_eq_nil
            (fun key => shownAs?_below_of_none wellFormed) store.size (shown.trans mapped)
          exact congrArg Except.ok nothing.symm
      | some name =>
          exact result_keysFrom_renamed wellFormed agree (shown.trans mapped) isRoot.holds

end Store

/-! ## An empty front -/

namespace Merged

variable {view : Merged C} {layout : Layout C} {key back : Key} {standing : Standing C}

/-- A view has nothing in its front, hides nothing, and has no references in its back. -/
structure ShowsBack (view : Merged C) (layout : Layout C) : Prop where
  frontNode : ∀ key, (view.front.node key).result = .ok none
  frontRoot : view.front.rootKey.result = .ok none
  hides : ∀ key, view.hidden.contains key = false
  back : view.back.Shows layout
  content : ∀ key standing, layout key = some standing → ∃ value, standing.payload = .content value

namespace ShowsBack

variable (onlyBack : view.ShowsBack layout)
include onlyBack

theorem result_locate (paired : view.keys.back? key = some back) (holds : layout.Holds back) :
    (view.locate key).result = .ok (some (.back back)) := by
  refine result_locate_of_absent (onlyBack.frontNode key) paired (onlyBack.hides back) ?_
  rw [onlyBack.back.contains, Layout.holds_iff_isSome.mp holds]

/-- A key is not located if it has no back key, or one that is not in the back. -/
theorem result_locate_eq_none (missing : ∀ back, view.keys.back? key = some back →
    layout back = none) : (view.locate key).result = .ok none := by
  rw [locate, Read.result_bind_of_ok (onlyBack.frontNode key)]
  cases paired : view.keys.back? key with
  | none => rfl
  | some back =>
      have absent : (view.back.contains back).result = .ok false := by
        rw [onlyBack.back.contains, missing back paired]
        rfl
      simp only [onlyBack.hides back, Bool.false_eq_true, if_false]
      rw [Read.result_bind_of_ok absent]
      rfl

/-- A handle of a back node has the node with its content. -/
theorem result_materialize (found : layout back = some standing) (key : Key) :
    (view.materialize (view.handle key (.back back))).result =
      .ok (some ⟨key, standing.payload⟩) := by
  obtain ⟨value, content⟩ := onlyBack.content back standing found
  have node : (view.back.node back).result = .ok (some ⟨back, .content value⟩) := by
    rw [onlyBack.back.node, found, ← content]
    rfl
  have payload : (view.back.payload back).result = .ok (.content value) :=
    Read.result_bind_of_ok node
  rw [content]
  exact result_materialize_of_back (result_backContent payload)

theorem result_node (key : Key) :
    ((view.back.renamed view.keys).node key).result = (view.tree.node key).result := by
  cases paired : view.keys.back? key with
  | none =>
      have located := onlyBack.result_locate_eq_none fun back other => nomatch paired.symm.trans other
      rw [Tree.result_node_renamed_of_none view.back paired, result_node_of_absent located]
  | some back =>
      rw [onlyBack.back.result_node_renamed paired]
      cases found : layout back with
      | none =>
          have located : (view.locate key).result = .ok none :=
            onlyBack.result_locate_eq_none fun other same => by
              cases paired.symm.trans same
              exact found
          rw [result_node_of_absent located]
          rfl
      | some standing =>
          exact (Merged.result_node (onlyBack.result_locate paired ⟨standing, found⟩)
            (onlyBack.result_materialize found key)).symm

theorem result_contains (key : Key) :
    ((view.back.renamed view.keys).contains key).result = (view.tree.contains key).result := by
  rw [onlyBack.back.result_contains_renamed]
  by_cases shown : ∃ back, view.keys.back? key = some back ∧ layout.Holds back
  · obtain ⟨back, paired, standing, found⟩ := shown
    rw [Merged.result_contains (onlyBack.result_locate paired ⟨standing, found⟩), paired,
      Option.bind_some, found]
    rfl
  · have missing : ∀ back, view.keys.back? key = some back → layout back = none :=
      fun back paired => Layout.not_holds_iff.mp fun holds => shown ⟨back, paired, holds⟩
    rw [Merged.result_contains (onlyBack.result_locate_eq_none missing),
      Option.bind_eq_none_iff.mpr missing]
    rfl

theorem result_rootKey :
    (view.back.renamed view.keys).rootKey.result = view.tree.rootKey.result := by
  obtain ⟨root, found, -, isRoot⟩ := onlyBack.back.root
  rw [onlyBack.back.result_rootKey_renamed found]
  have given : view.getRoot.result = .ok (root.bind fun root =>
      (view.keys.front? root).map fun key => view.handle key (.back root)) := by
    rw [getRoot, Read.result_bind_of_ok onlyBack.frontRoot]
    refine (Read.result_bind_of_ok found).trans ?_
    cases root with
    | none => rfl
    | some root =>
        simp only [onlyBack.hides root]
        rfl
  symm
  cases root with
  | none =>
      have shown : view.rootNode.result = .ok none := Read.result_bind_of_ok given
      exact Read.result_bind_of_ok shown
  | some root =>
      obtain ⟨standing, there⟩ := ((isRoot root).mp rfl).holds
      rw [Option.bind_some] at given ⊢
      cases mapped : view.keys.front? root with
      | none =>
          rw [mapped] at given
          have shown : view.rootNode.result = .ok none := Read.result_bind_of_ok given
          exact Read.result_bind_of_ok shown
      | some key =>
          rw [mapped] at given
          have shown : view.rootNode.result = .ok (some ⟨key, standing.payload⟩) :=
            (Read.result_bind_of_ok given).trans (onlyBack.result_materialize there key)
          exact Read.result_bind_of_ok shown

/-- The parent of a back node is asked of the back, and looked up again under its front key. -/
theorem result_parent (agree : view.keys.Mutual) (paired : view.keys.back? key = some back)
    (found : layout back = some standing) :
    (view.tree.parent key).result = .ok (standing.parent.bind view.keys.front?) := by
  have required := result_require (onlyBack.result_locate paired ⟨standing, found⟩)
  have free : (view.isFrontTreeReference key).result = .ok false :=
    Read.result_bind_of_ok (onlyBack.frontNode key)
  have above : (view.back.parent back).result = .ok standing.parent := by
    rw [onlyBack.back.parent, found]
  have asked : (view.parentKey (view.handle key (.back back))).result =
      .ok (standing.parent.bind view.keys.front?) :=
    (Read.result_bind_of_ok free).trans (Read.result_bind_of_ok above)
  have given : ∃ handle, (view.parentOf (view.handle key (.back back))).result = .ok handle ∧
      handle.map (·.key) = standing.parent.bind view.keys.front? := by
    rw [parentOf, Read.result_bind_of_ok (view.result_check key (.back back)),
      Read.result_bind_of_ok asked]
    cases shown : standing.parent.bind view.keys.front? with
    | none => exact ⟨none, rfl, rfl⟩
    | some name =>
        obtain ⟨parent, same, mapped⟩ := Option.bind_eq_some_iff.mp shown
        have isChild : layout.IsChild back parent := by
          rw [Layout.isChild_iff, found, Option.map_some, same]
        exact ⟨_, result_get (onlyBack.result_locate ((agree name parent).mpr mapped)
          (onlyBack.back.isTree.parent_holds isChild)), rfl⟩
  obtain ⟨handle, told, same⟩ := given
  refine (Read.result_bind_of_ok required).trans ((Read.result_bind_of_ok told).trans ?_)
  exact congrArg Except.ok same

theorem result_children (paired : view.keys.back? key = some back) (holds : layout.Holds back) :
    (view.tree.children key).result =
      .ok ((view.back.childList back).filterMap view.keys.front?) := by
  rw [result_children_of_back (onlyBack.result_locate paired holds) (onlyBack.back.result_children holds),
    backChildren]
  simp [onlyBack.hides, List.map_filterMap, Function.comp_def, handle]

/-- A view with an empty front shows what its back shows under the front keys. -/
theorem showsAlike (agree : view.keys.Mutual) :
    (view.back.renamed view.keys).ShowsAlike view.tree where
  rootKey := onlyBack.result_rootKey
  node := onlyBack.result_node
  contains := onlyBack.result_contains
  parent key shown := by
    obtain ⟨back, paired, standing, found⟩ := onlyBack.back.contains_renamed_iff.mp shown
    rw [onlyBack.back.result_parent_renamed paired found, onlyBack.result_parent agree paired found]
  children key shown := by
    obtain ⟨back, paired, holds⟩ := onlyBack.back.contains_renamed_iff.mp shown
    rw [onlyBack.back.result_children_renamed paired holds, onlyBack.result_children paired holds]

end ShowsBack

end Merged

/-! ## Renamed views of stores -/

/-- A renamed view of a store walks over the nodes that are mapped from the root on, in the order of
the store and under their front keys. The keys that it shows have parents and children, and these
agree. If the store has no references, an empty front over it shows the same. -/
theorem View.renamed_shows_mapped_part {store : Store C} {pairing : Pairing}
    (edits : store.Reachable) (pairs : pairing.Reachable) :
    let keys := KeyMap.paired pairing
    let view := (View.renamed (.store store) keys).tree
    (∃ all, store.tree.keys.result = .ok all ∧
      view.keys.result = .ok (all.filterMap (store.shownAs? keys))) ∧
    (∀ key, (view.contains key).result = .ok true → ∃ parent children,
      (view.parent key).result = .ok parent ∧ (view.children key).result = .ok children) ∧
    (∀ parent child, (∃ children, (view.children parent).result = .ok children ∧ child ∈ children) ↔
      (view.parent child).result = .ok (some parent)) ∧
    (store.AllContent → ∀ (front : Store C) (settings : ViewSettings) (trap : Option Trap),
      front.Reachable → front.isEmpty = true →
      view.ShowsAlike (View.merged (.store front) (.store store) keys ∅ settings trap).tree) := by
  intro keys view
  have wellFormed := edits.wellFormed
  have shows := wellFormed.shows
  have agree : keys.Mutual := pairs.mutual
  refine ⟨Store.result_keys_renamed wellFormed agree, fun key shown => ?_,
    shows.renamed_links agree, fun allContent front settings trap frontEdits empty => ?_⟩
  · obtain ⟨back, paired, standing, found⟩ := shows.contains_renamed_iff.mp shown
    exact ⟨_, _, shows.result_parent_renamed paired found,
      shows.result_children_renamed paired ⟨standing, found⟩⟩
  · have nothing : ∀ key, front.layout key = none := Store.isEmpty_iff.mp empty
    have onlyBack : (Merged.mk front.tree store.tree keys ∅ settings trap).ShowsBack store.layout := {
      frontNode := fun key => by rw [frontEdits.wellFormed.shows.node, nothing key]; rfl
      frontRoot := congrArg Except.ok (frontEdits.wellFormed.root_eq_none nothing)
      hides := fun key => by simp
      back := shows
      content := fun key standing found => allContent.exists_content found }
    exact onlyBack.showsAlike agree

/-- Of a chain whose middle has no front key only the root is walked over, although the end of the chain
is shown when it is asked for. One front key stands for a key that is not in the chain. -/
theorem View.renamed_shows_mapped_part_chain :
    let pairing := Pairing.ofPairs [(.text "r", .number 1), (.text "e", .number 3),
      (.text "none", .number 9)]
    let keys := KeyMap.paired pairing
    let view := (View.renamed (.store Store.chain) keys).tree
    Store.chain.Reachable ∧ pairing.Reachable ∧ Store.chain.AllContent ∧
    (Store.empty ⟨2⟩ : Store String).Reachable ∧ (Store.empty ⟨2⟩ : Store String).isEmpty = true ∧
    view.keys.result = .ok [.text "r"] ∧
    (view.parent (.text "e")).result = .ok none ∧
    (∃ children, (view.children (.text "r")).result = .ok children) ∧
    (∀ parent child, (∃ children, (view.children parent).result = .ok children ∧ child ∈ children) ↔
      (view.parent child).result = .ok (some parent)) ∧
    view.ShowsAlike (View.merged (.store (Store.empty ⟨2⟩)) (.store Store.chain) keys ∅ {} none).tree := by
  intro pairing keys view
  have edits : Store.chain.Reachable := Store.reachable_ofEdits ⟨1⟩ Store.chainEdits
  have pairs : pairing.Reachable := .ofPairs _
  have frontEdits : (Store.empty ⟨2⟩ : Store String).Reachable := .empty ⟨2⟩ _
  have empty : (Store.empty ⟨2⟩ : Store String).isEmpty = true := by decide +kernel
  obtain ⟨⟨all, told, walked⟩, answers, links, alike⟩ := View.renamed_shows_mapped_part edits pairs
  have chain : Store.chain.tree.keys.result = .ok [.number 1, .number 2, .number 3] := by
    decide +kernel
  obtain rfl := Except.ok.inj (told.symm.trans chain)
  have shown : [Key.number 1, .number 2, .number 3].filterMap (Store.chain.shownAs? keys) =
      [.text "r"] := by decide +kernel
  rw [shown] at walked
  obtain ⟨-, children, -, below⟩ := answers (.text "r") (by decide +kernel)
  exact ⟨edits, pairs, Store.allContent_chain, frontEdits, empty, walked, by decide +kernel,
    ⟨children, below⟩, links, alike Store.allContent_chain _ {} none frontEdits empty⟩

end VersionedTrees
