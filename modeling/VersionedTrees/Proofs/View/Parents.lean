import VersionedTrees.Proofs.View.Expansion
import VersionedTrees.Proofs.View.Handles

/-!
# Parents in a view

A view finds children from above: those of a tree-reference are the children of its target in the
back. It finds parents from below: the parent of a node that is read from the back is looked up there,
unless the front holds a tree-reference under the node's own key. The two ways meet at a node exactly
when the node has the same key on both sides and the front does not hold a tree-reference under the
child's key that hangs elsewhere (`Merged.parentOf_child_iff`).

So a tree-reference under another key than its target's is missed: from its children the view leads to
the key of the target, which may be another node, or none at all.
-/

namespace VersionedTrees

variable {C : Type}

/-- From a child of a node that is read from the back, the view leads elsewhere than to the node: the
node has another key in the back, or the child's key is that of a front tree-reference with another
parent. -/
def Store.Misleads (front : Store C) (node : Handle) (child : Key) : Prop :=
  ∃ target, node.side = .back target ∧ (target ≠ node.key ∨
    ∃ parent reference, front.layout child = some ⟨parent, .treeReference reference⟩ ∧
      parent ≠ some node.key)

namespace Merged

variable {front back expanded : Store C} {key child target : Key} {side : Side}
  {standing : Standing C} {node handle : Handle}

/-! ## What a handle is of -/

/-- What a view reads from a side under a key: a front node that is no tree-reference, a
tree-reference, which is read at its target, or a back node under its own key. -/
inductive Places (front back : Store C) (key : Key) : Side → Prop where
  | plain {standing : Standing C} (found : front.layout key = some standing)
      (plain : standing.payload.isTreeReference = false) : Places front back key .front
  | treeReference {parent : Option Key} {reference : Reference}
      (found : front.layout key = some ⟨parent, .treeReference reference⟩)
      (holds : back.layout.Holds reference.key) : Places front back key (.back reference.key)
  | own (holds : back.layout.Holds key) : Places front back key (.back key)

theorem Places.holds (places : Places front back key (.back target)) :
    back.layout.Holds target := by
  cases places with
  | treeReference found holds => exact holds
  | own holds => exact holds

theorem Places.holds_key (places : Places front back key side) :
    front.layout.Holds key ∨ back.layout.Holds key := by
  cases places with
  | plain found plain => exact .inl ⟨_, found⟩
  | treeReference found holds => exact .inl ⟨_, found⟩
  | own holds => exact .inr holds

section

variable (settings : ViewSettings) (trap : Option Trap)

theorem result_isFrontTreeReference (front back : Store C) (settings : ViewSettings)
    (trap : Option Trap) (key : Key) :
    ((ofStores front back settings trap).isFrontTreeReference key).result =
      .ok ((front.layout key).any (·.payload.isTreeReference)) := by
  have node : ((ofStores front back settings trap).front.node key).result =
      .ok (front.node? key) := rfl
  rw [isFrontTreeReference, Read.result_bind_of_ok node, front.node?_eq, Option.any_map]
  rfl

/-- A key that the front does not have is located exactly if the back has it. -/
theorem result_locate_of_no_front (back : Store C) (absent : front.layout key = none) :
    ((ofStores front back settings trap).locate key).result =
      .ok (if back.contains key then some (.back key) else none) := by
  have node : ((ofStores front back settings trap).front.node key).result = .ok none := by
    change Except.ok (front.node? key) = _
    rw [front.node?_eq, absent]
    rfl
  cases contains : back.contains key with
  | true =>
      exact result_locate_of_absent node rfl Std.TreeSet.contains_emptyc (congrArg Except.ok contains)
  | false =>
      rw [locate, Read.result_bind_of_ok node]
      have missing : ((ofStores front back settings trap).back.contains key).result = .ok false :=
        congrArg Except.ok contains
      exact Read.result_bind_of_ok missing

/-- The shown ones of some front keys are given as they are located. -/
theorem located_of_frontChildren {keys : List Key} {handles : List Handle}
    (ok : ((ofStores front back settings trap).frontChildren keys).result = .ok handles) :
    ∀ handle ∈ handles, handle.key ∈ keys ∧
      ((ofStores front back settings trap).locate handle.key).result = .ok (some handle.side) ∧
      handle.generation = (ofStores front back settings trap).generation := by
  induction keys generalizing handles with
  | nil =>
      cases ok
      exact fun _ mem => absurd mem List.not_mem_nil
  | cons key keys inductionHypothesis =>
      obtain ⟨located, found, ok⟩ := Read.result_bind_eq_ok ok
      obtain ⟨others, told, ok⟩ := Read.result_bind_eq_ok ok
      cases ok
      intro handle mem
      rcases List.mem_append.mp mem with first | other
      · obtain ⟨side, rfl, rfl⟩ := Option.map_eq_some_iff.mp (Option.mem_toList.mp first)
        exact ⟨List.mem_cons_self, result_of_trapped found, rfl⟩
      · obtain ⟨among, located, same⟩ := inductionHypothesis told handle other
        exact ⟨List.mem_cons_of_mem _ among, located, same⟩

section

variable (refers : front.RefersInto back)
include refers

/-- A node of the front is located, and the view knows the parent that it has in the front. -/
theorem exists_located_of_front (found : front.layout key = some standing) :
    ∃ side, ((ofStores front back settings trap).locate key).result = .ok (some side) ∧
      Places front back key side ∧
      ((ofStores front back settings trap).parentKey
        ((ofStores front back settings trap).handle key side)).result = .ok standing.parent := by
  have node : ((ofStores front back settings trap).front.node key).result =
      .ok (some ⟨key, standing.payload⟩) := Buffer.result_node_base found
  have parent : ((ofStores front back settings trap).front.parent key).result =
      .ok standing.parent := by
    change (front.tree.parent key).result = _
    rw [refers.wellFormed.shows.parent, found]
  cases kind : standing.payload.isTreeReference with
  | false => exact ⟨_, result_locate_of_plain node kind, .plain found kind, parent⟩
  | true =>
      obtain ⟨above, payload⟩ := standing
      cases payload with
      | content value => cases kind
      | nodeReference reference => cases kind
      | treeReference reference =>
          obtain ⟨same, holds⟩ := refers.resolves key _ found reference rfl
          refine ⟨_, result_locate_of_treeReference node same (result_contains_back holds),
            .treeReference found holds, ?_⟩
          have isReference := result_isFrontTreeReference front back settings trap key
          rw [found] at isReference
          exact (Read.result_bind_of_ok isReference).trans parent

theorem places_of_locate
    (located : ((ofStores front back settings trap).locate key).result = .ok (some side)) :
    Places front back key side := by
  cases found : front.layout key with
  | some standing =>
      obtain ⟨side', located', places, -⟩ := exists_located_of_front settings trap refers found
      cases located.symm.trans located'
      exact places
  | none =>
      rw [result_locate_of_no_front settings trap back found] at located
      cases contains : back.contains key with
      | true =>
          rw [contains] at located
          cases located
          exact .own (Store.contains_iff_holds.mp contains)
      | false =>
          rw [contains] at located
          cases located

/-- A key of either store is shown. -/
theorem exists_get_of_holds (holds : front.layout.Holds key ∨ back.layout.Holds key) :
    ∃ side, ((ofStores front back settings trap).get key).result =
      .ok (some ((ofStores front back settings trap).handle key side)) := by
  cases found : front.layout key with
  | some standing =>
      obtain ⟨side, located, -⟩ := exists_located_of_front settings trap refers found
      exact ⟨side, result_get located⟩
  | none =>
      have contains : back.contains key = true :=
        Store.contains_iff_holds.mpr (holds.resolve_left (Layout.not_holds_iff.mpr found))
      have located := result_locate_of_no_front settings trap back found
      rw [contains] at located
      exact ⟨_, result_get located⟩

/-- The handle that a view gives for a key is of what it reads there. -/
theorem places_of_get
    (ok : ((ofStores front back settings trap).get key).result = .ok (some handle)) :
    handle.key = key ∧ Places front back handle.key handle.side := by
  obtain ⟨located, told, ok⟩ := Read.result_bind_eq_ok ok
  obtain ⟨side, rfl, rfl⟩ := Option.map_eq_some_iff.mp (Except.ok.inj ok)
  exact ⟨rfl, places_of_locate settings trap refers (result_of_trapped told)⟩

/-- Every handle that a view gives is of what it reads there. -/
theorem places_of_gives (wellFormed : back.WellFormed)
    (gives : (ofStores front back settings trap).Gives handle) :
    Places front back handle.key handle.side := by
  cases gives with
  | get ok => exact (places_of_get settings trap refers ok).2
  | root ok =>
      obtain ⟨root, told, ok⟩ := Read.result_bind_eq_ok ok
      cases root with
      | some root => exact (places_of_get settings trap refers ok).2
      | none =>
          obtain ⟨root, told, ok⟩ := Read.result_bind_eq_ok ok
          cases root with
          | none => cases ok
          | some root =>
              have visible : (ofStores front back settings trap).hidden.contains root = false :=
                Std.TreeSet.contains_emptyc
              simp only [visible, Bool.false_eq_true, if_false] at ok
              cases ok
              exact .own (((wellFormed.root root).mp (Except.ok.inj told)).elim
                fun _ found => ⟨_, found⟩)
  | parent ok =>
      obtain ⟨⟨⟩, -, ok⟩ := Read.result_bind_eq_ok ok
      obtain ⟨parent, -, ok⟩ := Read.result_bind_eq_ok ok
      cases parent with
      | none => cases ok
      | some key => exact (places_of_get settings trap refers ok).2
  | @child above handle handles ok mem =>
      obtain ⟨⟨⟩, -, ok⟩ := Read.result_bind_eq_ok ok
      cases side : above.side with
      | front =>
          rw [side] at ok
          obtain ⟨keys, -, ok⟩ := Read.result_bind_eq_ok ok
          exact places_of_locate settings trap refers
            (located_of_frontChildren settings trap ok handle mem).2.1
      | back key =>
          rw [side] at ok
          obtain ⟨keys, told, ok⟩ := Read.result_bind_eq_ok ok
          cases ok
          rw [backChildren_eq] at mem
          obtain ⟨child, among, rfl⟩ := List.mem_map.mp mem
          have shows := wellFormed.shows
          have told : (back.tree.children key).result = .ok keys := told
          rw [shows.children] at told
          split at told
          · cases told
            exact .own ((shows.listed.mem_iff key child).mp among).holds
          · cases told

/-! ## The way back to a node -/

/-- A view that knows the key of a node's parent leads to the node with that key. -/
theorem exists_parentOf {parent : Option Key}
    (current : handle.generation = (ofStores front back settings trap).generation)
    (told : ((ofStores front back settings trap).parentKey handle).result = .ok parent)
    (shown : ∀ key, parent = some key → front.layout.Holds key ∨ back.layout.Holds key)
    (holds : front.layout.Holds key ∨ back.layout.Holds key) :
    ∃ found, ((ofStores front back settings trap).parentOf handle).result = .ok found ∧
      (((ofStores front back settings trap).get key).result = .ok found ↔ parent = some key) := by
  obtain ⟨side, got⟩ := exists_get_of_holds settings trap refers holds
  rw [parentOf, Read.result_bind_of_ok (result_check_of_eq current), Read.result_bind_of_ok told]
  cases parent with
  | none =>
      refine ⟨none, rfl, fun same => ?_, nofun⟩
      rw [got] at same
      cases same
  | some above =>
      obtain ⟨side', got'⟩ := exists_get_of_holds settings trap refers (shown above rfl)
      refine ⟨_, got', fun same => ?_, fun same => ?_⟩
      · rw [got] at same
        cases same
        rfl
      · cases same
        exact got'

end

section

variable (stitches : Stitches front back expanded)
include stitches

/-- A node of the front leads to its children and back. -/
theorem parentOf_child_of_front
    (current : node.generation = (ofStores front back settings trap).generation)
    (isFront : node.side = .front) (found : front.layout node.key = some standing) :
    ∃ children, ((ofStores front back settings trap).childrenOf node).result = .ok children ∧
      ∀ child ∈ children, ∃ parent,
        ((ofStores front back settings trap).parentOf child).result = .ok parent ∧
        ((ofStores front back settings trap).get node.key).result = .ok parent := by
  have refers := stitches.refers
  have shows := refers.wellFormed.shows
  have child_iff := shows.listed.mem_iff node.key
  have listed : ((ofStores front back settings trap).front.children node.key).result =
      .ok (front.tree.childList node.key) := shows.result_children ⟨_, found⟩
  have located : ∀ child ∈ front.tree.childList node.key, ∃ side,
      ((ofStores front back settings trap).locate child).result = .ok (some side) :=
    fun child inside => ((child_iff child).mp inside).elim fun _ => exists_located stitches
  obtain ⟨children, told, -⟩ := result_frontChildren located
  refine ⟨children, ?_, fun child mem => ?_⟩
  · refine (Read.result_bind_of_ok (result_check_of_eq current)).trans ?_
    rw [isFront]
    exact (Read.result_bind_of_ok listed).trans told
  · obtain ⟨inside, located, same⟩ := located_of_frontChildren settings trap told child mem
    obtain ⟨payload, found'⟩ := (child_iff child.key).mp inside
    obtain ⟨side, located', -, above⟩ := exists_located_of_front settings trap refers found'
    cases located.symm.trans located'
    have above : ((ofStores front back settings trap).parentKey child).result =
        .ok (some node.key) := by
      rw [← above, handle, ← same]
    obtain ⟨parent, ok, same⟩ := exists_parentOf settings trap refers same above
      (fun key same => .inl (Option.some.inj same ▸ ⟨_, found⟩)) (.inl ⟨_, found⟩)
    exact ⟨parent, ok, same.mpr rfl⟩

/-- A child of what a tree-reference stands for, under another key than its target's, is not a key of
the front. -/
theorem absent_of_renamed {child : Key} (places : Places front back key (.back target))
    (renamed : target ≠ key) (isChild : back.layout.IsChild child target) :
    front.layout child = none := by
  cases places with
  | own holds => exact absurd rfl renamed
  | treeReference found holds =>
      exact stitches.absent_of_grafts
        ⟨⟨_, found⟩, isChild, stitches.wellFormed.isTree.within_self holds⟩

/-- For a child of a node that is read from the back, the view knows a key of a shown parent. It is
that of the node unless the child misleads. -/
theorem exists_parentKey_of_back (isBack : node.side = .back target)
    (places : Places front back node.key (.back target)) (isChild : back.layout.IsChild child target) :
    ∃ parent, ((ofStores front back settings trap).parentKey
        ((ofStores front back settings trap).handle child (.back child))).result = .ok parent ∧
      (∀ key, parent = some key → front.layout.Holds key ∨ back.layout.Holds key) ∧
      (parent = some node.key ↔ ¬ front.Misleads node child) := by
  have refers := stitches.refers
  have asked := result_isFrontTreeReference front back settings trap child
  by_cases taken : ∃ parent reference, front.layout child = some ⟨parent, .treeReference reference⟩
  · -- the view asks the front for the parent
    obtain ⟨parent, reference, found⟩ := taken
    rw [found] at asked
    have same : target = node.key := by
      by_contra renamed
      rw [absent_of_renamed stitches places renamed isChild] at found
      cases found
    have above : ((ofStores front back settings trap).front.parent child).result = .ok parent := by
      change (front.tree.parent child).result = _
      rw [refers.wellFormed.shows.parent, found]
    refine ⟨parent, (Read.result_bind_of_ok asked).trans above, ?_, fun leads => ?_, fun leads => ?_⟩
    · rintro key rfl
      exact .inl (refers.wellFormed.isTree.parent_holds ⟨_, found⟩)
    · rintro ⟨target', isBack', different | ⟨parent', reference', found', different⟩⟩
      · cases isBack.symm.trans isBack'
        exact different same
      · cases found.symm.trans found'
        exact different leads
    · by_contra different
      exact leads ⟨target, isBack, .inr ⟨parent, reference, found, different⟩⟩
  · -- the view asks the back for the parent, which is the target
    have free : (front.layout child).any (·.payload.isTreeReference) = false := by
      cases found : front.layout child with
      | none => rfl
      | some standing =>
          obtain ⟨parent, payload⟩ := standing
          cases payload with
          | content value => rfl
          | nodeReference reference => rfl
          | treeReference reference => exact absurd ⟨parent, reference, found⟩ taken
    rw [free] at asked
    have above : ((ofStores front back settings trap).back.parent child).result =
        .ok (some target) := stitches.wellFormed.shows.result_parent_eq_some_iff.mpr isChild
    refine ⟨some target, (Read.result_bind_of_ok asked).trans (Read.result_bind_of_ok above), ?_,
      fun leads => ?_, fun leads => ?_⟩
    · rintro key ⟨⟩
      exact .inr places.holds
    · rintro ⟨target', isBack', different | ⟨parent, reference, found, -⟩⟩
      · cases isBack.symm.trans isBack'
        exact different (Option.some.inj leads)
      · exact taken ⟨parent, reference, found⟩
    · by_contra different
      exact leads ⟨target, isBack, .inl fun same => different (congrArg some same)⟩

/-- A node that is read from the back leads to its children, and back from those that do not
mislead. -/
theorem parentOf_child_of_back
    (current : node.generation = (ofStores front back settings trap).generation)
    (isBack : node.side = .back target) (places : Places front back node.key (.back target)) :
    ∃ children, ((ofStores front back settings trap).childrenOf node).result = .ok children ∧
      ∀ child ∈ children, ∃ parent,
        ((ofStores front back settings trap).parentOf child).result = .ok parent ∧
        (((ofStores front back settings trap).get node.key).result = .ok parent ↔
          ¬ front.Misleads node child.key) := by
  have shows := stitches.wellFormed.shows
  have listed : ((ofStores front back settings trap).back.children target).result =
      .ok (back.tree.childList target) := shows.result_children places.holds
  have told : ((ofStores front back settings trap).childrenOf node).result =
      .ok ((ofStores front back settings trap).backChildren (back.tree.childList target)) := by
    rw [childrenOf, Read.result_bind_of_ok (result_check_of_eq current), isBack]
    exact Read.result_bind_of_ok listed
  refine ⟨_, told, fun handle mem => ?_⟩
  rw [backChildren_eq] at mem
  obtain ⟨child, among, rfl⟩ := List.mem_map.mp mem
  have isChild := (shows.listed.mem_iff target child).mp among
  obtain ⟨above, told, shown, leads⟩ :=
    exists_parentKey_of_back settings trap stitches isBack places isChild
  obtain ⟨parent, ok, same⟩ :=
    exists_parentOf settings trap stitches.refers rfl told shown places.holds_key
  exact ⟨parent, ok, same.trans leads⟩

end

end

/-- A view of a front store over a back store, whose references can be expanded, tells the children of
every node that it gives and a parent of each of them. The parent is the node itself exactly when the
child does not mislead. -/
theorem parentOf_child_iff (frontEdits : front.Reachable) (backEdits : back.Reachable)
    (allContent : back.AllContent)
    (pointsInto : ∀ key payload reference, front.payload? key = some payload →
      payload.reference? = some reference → reference.PointsInto back.tree)
    (childless : front.LeafReferences)
    (expands : ((Donors.mk [back.tree]).expand front.tree).result = .ok expanded)
    (settings : ViewSettings) (trap : Option Trap) :
    let view := ofStores front back settings trap
    ∀ node, view.Gives node → ∃ children, (view.childrenOf node).result = .ok children ∧
      ∀ child ∈ children, ∃ parent, (view.parentOf child).result = .ok parent ∧
        ((view.get node.key).result = .ok parent ↔ ¬ front.Misleads node child.key) := by
  intro view node gives
  have stitches := stitches_of_expand frontEdits backEdits allContent pointsInto childless expands
  have current := gives.generation_eq
  have places := places_of_gives settings trap stitches.refers stitches.wellFormed gives
  cases side : node.side with
  | front =>
      rw [side] at places
      cases places with
      | plain found plain =>
          obtain ⟨children, told, leads⟩ :=
            parentOf_child_of_front settings trap stitches current side found
          refine ⟨children, told, fun child mem => ?_⟩
          obtain ⟨parent, ok, same⟩ := leads child mem
          refine ⟨parent, ok, iff_of_true same ?_⟩
          rintro ⟨target, isBack, -⟩
          cases side.symm.trans isBack
  | back target =>
      rw [side] at places
      exact parentOf_child_of_back settings trap stitches current side places

/-- Of the nodes of the stitched front, the root leads to its children and back. The renamed one, whose
only child is the end of the chain, does not: that one misleads. -/
theorem parentOf_child_iff_stitched :
    let front := Store.ofEdits ⟨5⟩ stitchedEdits
    let view := ofStores front Store.chain {} none
    front.Reachable ∧ Store.chain.Reachable ∧ Store.chain.AllContent ∧
      (∀ key payload reference, front.payload? key = some payload →
        payload.reference? = some reference → reference.PointsInto Store.chain.tree) ∧
      front.LeafReferences ∧
      (∃ expanded, ((Donors.mk [Store.chain.tree]).expand front.tree).result = .ok expanded) ∧
      ∀ node, view.Gives node → ∃ children, (view.childrenOf node).result = .ok children ∧
        ∀ child ∈ children, ∃ parent, (view.parentOf child).result = .ok parent ∧
          ((view.get node.key).result = .ok parent ↔ ¬ front.Misleads node child.key) := by
  intro front view
  have frontEdits : front.Reachable := Store.reachable_ofEdits ⟨5⟩ stitchedEdits
  have backEdits : Store.chain.Reachable := Store.reachable_ofEdits ⟨1⟩ Store.chainEdits
  have verified : (Delta.verify ⟨Store.chain.id, front⟩ Store.chain.tree).result = .ok () := by
    decide +kernel
  have pointsInto := pointsInto_of_verify verified
  have childless : front.LeafReferences := Store.leafReferences_of_entries (by decide +kernel)
  have told : (do
      let expanded ← (Donors.mk [Store.chain.tree]).expand front.tree
      expanded.tree.keys).result =
        .ok [.number 9, .number 1, .number 4, .number 3, .text "n"] := by decide +kernel
  obtain ⟨expanded, ok, -⟩ := Read.result_bind_eq_ok told
  exact ⟨frontEdits, backEdits, Store.allContent_chain, pointsInto, childless, ⟨expanded, ok⟩,
    parentOf_child_iff frontEdits backEdits Store.allContent_chain pointsInto childless ok {} none⟩

/-- A tree-reference under another key than its target's shows the child of the target, and the child
has the target for its parent. -/
theorem parent_missed_of_renamed :
    let front := Store.ofEdits ⟨5⟩ stitchedEdits
    let view := ofStores front Store.chain {} none
    front.Reachable ∧ Store.chain.Reachable ∧ Store.chain.AllContent ∧ front.isEmpty = false ∧
      (∀ key payload reference, front.payload? key = some payload →
        payload.reference? = some reference → reference.PointsInto Store.chain.tree) ∧
      front.LeafReferences ∧
      (∃ expanded, ((Donors.mk [Store.chain.tree]).expand front.tree).result = .ok expanded) ∧
      ∃ node child parent, (view.get (.number 4)).result = .ok (some node) ∧
        (view.childrenOf node).result = .ok [child] ∧ child.key = .number 3 ∧
        (view.parentOf child).result = .ok (some parent) ∧ parent.key = .number 2 := by
  intro front view
  have verified : (Delta.verify ⟨Store.chain.id, front⟩ Store.chain.tree).result = .ok () := by
    decide +kernel
  have told : (do
      let expanded ← (Donors.mk [Store.chain.tree]).expand front.tree
      expanded.tree.keys).result =
        .ok [.number 9, .number 1, .number 4, .number 3, .text "n"] := by decide +kernel
  obtain ⟨expanded, ok, -⟩ := Read.result_bind_eq_ok told
  refine ⟨Store.reachable_ofEdits ⟨5⟩ stitchedEdits, Store.reachable_ofEdits ⟨1⟩ Store.chainEdits,
    Store.allContent_chain, by decide +kernel, pointsInto_of_verify verified,
    Store.leafReferences_of_entries (by decide +kernel), ⟨expanded, ok⟩, ?_⟩
  refine ⟨view.handle (.number 4) (.back (.number 2)), view.handle (.number 3) (.back (.number 3)),
    view.handle (.number 2) (.back (.number 2)), ?_⟩
  decide +kernel

end Merged

end VersionedTrees
