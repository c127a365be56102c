import VersionedTrees.Proofs.Buffer.Deletion
import VersionedTrees.Proofs.Buffer.PlainRuns

/-!
# Restored subtrees

To store a tree-reference under the key of its target removes what stood below that key in the overlay
and settles the base subtree (`Changes.restored`). If no key of the base subtree stands elsewhere in the
overlay, the buffer then shows the whole base subtree in the place of what it showed there, and all else
as before (`Changes.Returns.shown_restored`).

After a run without stored tree-references that is so wherever the base nodes that are shown have their
base parents. Then an update with a tree-reference undoes all edits below its key
(`Buffer.restores_update`).
-/

namespace VersionedTrees

variable {C : Type}

namespace Changes

variable {base : Store C} {changes : Changes C} {key top parent : Key} {above : Option Key}

/-- The changes after a tree-reference to a base node has been stored under the key of that node. -/
noncomputable def restored (base : Store C) (changes : Changes C) (top : Key) (above : Option Key) :
    Changes C :=
  ((changes.place top ⟨above, .treeReference ⟨base.id, top⟩⟩).strip base top).settle base top

/-- A base node can be made to stand for its base subtree again, with no key of that subtree elsewhere in
the overlay. -/
structure Returns (base : Store C) (changes : Changes C) (top : Key) (above : Option Key) : Prop where
  sound : changes.Sound base
  intact : changes.Intact base
  enters : changes.Enters base top ⟨above, .treeReference ⟨base.id, top⟩⟩
  isTree : (changes.place top ⟨above, .treeReference ⟨base.id, top⟩⟩).overlay.IsTree
  clear : ∀ key, base.layout.Within top key → changes.overlay.Holds key →
    changes.overlay.Within top key

namespace Returns

variable (returns : changes.Returns base top above) (baseTree : base.layout.IsTree)

include returns

theorem top_holds : base.layout.Holds top :=
  returns.enters.admits.2

/-- The overlay is that without the former subtree, with the lazy node in place of its top. -/
theorem overlay_restored : (changes.restored base top above).overlay =
    (changes.remove base top).overlay.place top ⟨above, .treeReference ⟨base.id, top⟩⟩ := by
  funext key
  have within_iff : _ ↔ top = key ∨ changes.overlay.Within top key :=
    returns.sound.isTree.within_place_self_iff returns.isTree
  rw [restored, overlay_settle]
  by_cases same : top = key
  · subst same
    rw [overlay_strip_of_not_below fun both => both.2 rfl, overlay_place, Layout.place_self,
      Layout.place_self]
  · rw [Layout.place_of_ne same, overlay_remove]
    by_cases within : changes.overlay.Within top key
    · rw [overlay_strip_of_below (within_iff.mpr (.inr within)) same, Layout.prune_of_within within]
    · rw [overlay_strip_of_not_below fun both => (within_iff.mp both.1).elim same within,
        overlay_place, Layout.place_of_ne same, Layout.prune_of_not_within within]

/-- No other key of the base subtree is in the overlay any more. -/
theorem overlay_restored_of_below (within : base.layout.Within top key) (different : top ≠ key) :
    (changes.restored base top above).overlay key = none := by
  rw [returns.overlay_restored, Layout.place_of_ne different, overlay_remove,
    ← Layout.not_holds_iff, Layout.prune_holds_iff]
  exact fun both => both.2 (returns.clear key within both.1)

theorem overlay_restored_of_ne (different : top ≠ key) :
    (changes.restored base top above).overlay key = (changes.remove base top).overlay key := by
  rw [returns.overlay_restored, Layout.place_of_ne different]

theorem overlay_restored_self : (changes.restored base top above).overlay top =
    some ⟨above, .treeReference ⟨base.id, top⟩⟩ := by
  rw [returns.overlay_restored, Layout.place_self]

theorem holds_restored_iff (different : top ≠ key) :
    (changes.restored base top above).overlay.Holds key ↔
      changes.overlay.Holds key ∧ ¬ changes.overlay.Within top key := by
  rw [← Layout.prune_holds_iff, Layout.Holds, returns.overlay_restored_of_ne different,
    overlay_remove, Layout.Holds]

theorem not_deleted_restored_of_within (within : base.layout.Within top key) :
    ¬ (changes.restored base top above).deleted key := by
  rw [restored, deleted_settle_of_within within]
  rintro ⟨different, holds⟩
  exact Layout.not_holds_iff.mpr (returns.overlay_restored_of_below within different) holds

include baseTree

theorem deleted_restored_of_not_within (outside : ¬ base.layout.Within top key) :
    (changes.restored base top above).deleted key ↔ (changes.remove base top).deleted key := by
  have isTree := returns.sound.isTree
  rw [restored, deleted_settle_of_not_within outside]
  refine or_congr_right ?_
  constructor
  · rintro ⟨node, within, different, standsFor⟩
    have within := ((isTree.within_place_self_iff returns.isTree).mp within).resolve_left different
    exact ⟨node, within, standsFor.imp_left (And.imp_left (isLazy_place_of_ne different).mp)⟩
  · rintro ⟨node, within, standsFor⟩
    have different : top ≠ node := by
      rintro rfl
      rcases standsFor with ⟨-, below⟩ | ⟨rfl, holds⟩
      · exact outside below
      · exact outside (baseTree.within_self holds)
    exact ⟨node, (isTree.within_place_self_iff returns.isTree).mpr (.inr within), different,
      standsFor.imp_left (And.imp_left (isLazy_place_of_ne different).mpr)⟩

/-- A base node that goes with the former subtree is deleted, unless it is one of the base subtree. -/
theorem deleted_restored_of_within (baseHolds : base.layout.Holds key)
    (outside : ¬ base.layout.Within top key) (within : changes.overlay.Within top key) :
    (changes.restored base top above).deleted key :=
  (returns.deleted_restored_of_not_within baseTree outside).mpr
    (.inr ⟨key, within, .inr ⟨rfl, baseHolds⟩⟩)

/-- Outside of the base subtree what is read from the base is what is read from it after a removal. -/
theorem readsBack_restored_iff (outside : ¬ base.layout.Within top key) (different : top ≠ key) :
    (changes.restored base top above).ReadsBack key ↔ (changes.remove base top).ReadsBack key := by
  rw [ReadsBack, ReadsBack, IsLazy, IsLazy, returns.overlay_restored_of_ne different,
    returns.deleted_restored_of_not_within baseTree outside]

/-- The base parent of the node is not read from the base, since the node would be in place then. -/
theorem apart (isChild : base.layout.IsChild top parent) :
    ¬ (changes.restored base top above).ReadsBack parent := by
  have outside := isChild.not_within baseTree
  have holds := baseTree.parent_holds isChild
  have different : top ≠ parent := by
    rintro rfl
    exact outside (baseTree.within_self holds)
  rw [returns.readsBack_restored_iff baseTree outside different]
  intro back
  obtain ⟨absent, kept⟩ := returns.intact top parent (readsBack_of_remove back holds) isChild
  rcases returns.enters.at_key with inside | gone
  · exact Layout.holds_iff_ne_none.mp inside absent
  · rw [shown_of_kept absent kept] at gone
    exact Layout.holds_iff_ne_none.mp isChild.holds gone

theorem sound_restored
    (restoring : ((changes.place top ⟨above, .treeReference ⟨base.id, top⟩⟩).strip base top).Restoring
      base top)
    (alone : ∀ child, ¬ ((changes.place top ⟨above, .treeReference ⟨base.id, top⟩⟩).strip base
      top).overlay.IsChild child top) : (changes.restored base top above).Sound base := by
  refine (restoring.sound_settle_iff baseTree alone).mpr
    ⟨fun key within holds notLazy => ?_, fun parent isChild => returns.apart baseTree isChild⟩
  by_cases same : top = key
  · subst same
    exact absurd restoring.isLazy notLazy
  · exact absurd (returns.overlay_restored_of_below within same) (Layout.holds_iff_ne_none.mp holds)

theorem intact_restored :
    (changes.restored base top above).Intact base := by
  intro key parent back isChild
  by_cases within : base.layout.Within top parent
  · have different : top ≠ key := by
      rintro rfl
      exact isChild.not_within baseTree within
    have below := isChild.within within
    exact ⟨returns.overlay_restored_of_below below different,
      returns.not_deleted_restored_of_within below⟩
  · have different : top ≠ parent := by
      rintro rfl
      exact within (baseTree.within_self (baseTree.parent_holds isChild))
    have notTop : top ≠ key := by
      rintro rfl
      exact returns.apart baseTree isChild back
    have outside : ¬ base.layout.Within top key := fun below =>
      within (((Layout.within_iff_of_isChild isChild baseTree).mp below).resolve_left notTop)
    rw [returns.readsBack_restored_iff baseTree within different] at back
    rw [returns.overlay_restored_of_ne notTop, returns.deleted_restored_of_not_within baseTree outside]
    exact returns.intact.remove baseTree top key parent back isChild

/-- What is shown then is the base subtree in place of what was shown, and all else as it was. -/
theorem shown_restored :
    (changes.restored base top above).shown base =
      (changes.shown base).graft base.layout top above := by
  have removed : (changes.remove base top).shown base = (changes.shown base).prune top := by
    rcases returns.enters.at_key with inside | gone
    · exact returns.sound.shown_remove baseTree returns.intact inside
    · have absent := (shown_eq_none_iff.mp gone).1
      rw [remove_eq_self absent, Layout.prune_eq_self gone]
  funext key
  by_cases within : base.layout.Within top key
  · by_cases same : top = key
    · subst same
      obtain ⟨standing, there⟩ := within.holds
      rw [Layout.graft_self baseTree there, shown_of_overlay returns.overlay_restored_self,
        Store.lend_treeReference there]
    · rw [Layout.graft_of_below within same,
        shown_of_kept (returns.overlay_restored_of_below within same)
          (returns.not_deleted_restored_of_within within)]
  · have different : top ≠ key := by
      rintro rfl
      exact within (baseTree.within_self returns.top_holds)
    rw [Layout.graft_of_outside within, ← removed, shown, shown,
      returns.overlay_restored_of_ne different, returns.deleted_restored_of_not_within baseTree within]

end Returns

end Changes

/-! ## Reading a restored subtree -/

namespace Tree

/-- A tree has the subtree of another tree at a key, and all else as before. `old` and `keys` are the keys
at and below that key, before and in the other tree. -/
structure Restores (base before after : Tree C) (top : Key) (old keys : List Key) : Prop where
  told : (after.keysFrom top).result = .ok keys
  node : ∀ key ∈ keys, (after.node key).result = (base.node key).result
  children : ∀ key ∈ keys, (after.children key).result = (base.children key).result
  parent : ∀ key ∈ keys, key ≠ top → (after.parent key).result = (base.parent key).result
  top_parent : (after.parent top).result = (before.parent top).result
  rootKey : after.rootKey.result = before.rootKey.result
  contains : ∀ key, (after.contains key).result = .ok true ↔
    key ∈ keys ∨ key ∉ old ∧ (before.contains key).result = .ok true
  node_outside : ∀ key ∉ old, (before.contains key).result = .ok true →
    (after.node key).result = (before.node key).result
  children_outside : ∀ key ∉ old, (before.contains key).result = .ok true →
    (after.children key).result = (before.children key).result
  parent_outside : ∀ key ∉ old, (before.contains key).result = .ok true →
    (after.parent key).result = (before.parent key).result

variable {base before after : Tree C} {layout other : Layout C} {top : Key} {above : Option Key}
  {old keys : List Key}

theorem Shows.contains_iff (shows : before.Shows layout) (key : Key) :
    (before.contains key).result = .ok true ↔ layout.Holds key := by
  rw [shows.contains, Except.ok.injEq, Layout.holds_iff_isSome]

/-- The keys that are told at and below a key are those of its subtree. -/
theorem Shows.mem_keysFrom_iff (shows : before.Shows layout) (holds : layout.Holds top)
    (told : (before.keysFrom top).result = .ok keys) (key : Key) :
    key ∈ keys ↔ layout.Within top key := by
  rw [shows.result_keysFrom holds, Except.ok.injEq] at told
  rw [← told, shows.listed.mem_preorder_iff shows.isTree holds (shows.exhausts holds (Nat.le_refl _))]

/-- A tree into whose layout a subtree is grafted, below the parent that its top had, has that subtree
and all else as before. -/
theorem Shows.restores_of_graft (shows : before.Shows layout) (baseShows : base.Shows other)
    (shows' : after.Shows (layout.graft other top above)) (confines : layout.Confines other top)
    (holds : layout.Holds top) (top_holds : other.Holds top)
    (isParent : ∀ parent, above = some parent ↔ layout.IsChild top parent)
    (told : (before.keysFrom top).result = .ok old)
    (baseTold : (base.keysFrom top).result = .ok keys) : base.Restores before after top old keys := by
  have isTree := shows.isTree
  have otherTree := baseShows.isTree
  have outside : ∀ parent, above = some parent → ¬ layout.Within top parent := fun parent same =>
    ((isParent parent).mp same).not_within isTree
  have held : ∀ parent, above = some parent → layout.Holds parent := fun parent same =>
    isTree.parent_holds ((isParent parent).mp same)
  have top_found := top_holds
  obtain ⟨standing, there⟩ := top_found
  have self : layout.graft other top above top = some ⟨above, standing.payload⟩ :=
    Layout.graft_self otherTree there
  have mem_keys := baseShows.mem_keysFrom_iff top_holds baseTold
  have mem_old := shows.mem_keysFrom_iff holds told
  have elsewhere : ∀ key, layout.Holds key → ¬ layout.Within top key →
      layout.graft other top above key = layout key :=
    fun key holds apart => confines.graft_of_not_within holds apart
  have below : ∀ key, other.Within top key → after.childList key = base.childList key :=
    fun key within => shows'.listed.eq_of_isChild_iff baseShows.listed fun child =>
      Layout.isChild_graft_of_within isTree otherTree confines outside held within
  have beside : ∀ key, layout.Holds key → ¬ layout.Within top key →
      after.childList key = before.childList key :=
    fun key holds apart => shows'.listed.eq_of_isChild_iff shows.listed fun child =>
      Layout.isChild_graft_of_outside isTree otherTree confines isParent top_holds holds apart
  constructor
  case told => rw [baseShows.result_keysFrom_congr shows' top_holds ⟨_, self⟩ below, baseTold]
  case node =>
    intro key inside
    rw [shows'.node, baseShows.node, Layout.graft_of_within ((mem_keys key).mp inside),
      Option.map_map]
    rfl
  case children =>
    intro key inside
    have within := (mem_keys key).mp inside
    rw [shows'.children, baseShows.children, below key within,
      Layout.graft_of_within within, Option.isSome_map]
  case parent =>
    intro key inside different
    rw [shows'.parent, baseShows.parent,
      Layout.graft_of_below ((mem_keys key).mp inside) (Ne.symm different)]
  case top_parent =>
    rw [shows'.parent, shows.parent, self]
    obtain ⟨standing', here⟩ := holds
    rw [here]
    refine congrArg Except.ok (Option.ext fun parent => ?_)
    rw [isParent, Layout.isChild_iff, here, Option.map_some, Option.some.injEq]
  case rootKey =>
    obtain ⟨found, same, -, isRoot_iff⟩ := shows.root
    obtain ⟨found', same', -, isRoot_iff'⟩ := shows'.root
    rw [same, same']
    refine congrArg Except.ok (Option.ext fun key => ?_)
    rw [isRoot_iff', isRoot_iff,
      Layout.isRoot_graft_iff otherTree confines isParent holds top_holds]
  case contains =>
    intro key
    rw [shows'.contains_iff, shows.contains_iff, mem_keys, mem_old, Layout.holds_graft_iff,
      and_comm (a := layout.Holds key)]
  case node_outside =>
    intro key apart inside
    rw [shows'.node, shows.node,
      (elsewhere key ((shows.contains_iff key).mp inside) (mt (mem_old key).mpr apart))]
  case children_outside =>
    intro key apart inside
    have holds := (shows.contains_iff key).mp inside
    have apart := mt (mem_old key).mpr apart
    rw [shows'.children, shows.children, elsewhere key holds apart, beside key holds apart]
  case parent_outside =>
    intro key apart inside
    rw [shows'.parent, shows.parent,
      (elsewhere key ((shows.contains_iff key).mp inside) (mt (mem_old key).mpr apart))]

end Tree

/-- A layout in which nodes of another layout have the parents that they have there has no key of a
subtree of that layout elsewhere. -/
theorem Layout.confines_of_sameParents {layout other : Layout C} {top : Key} (isTree : layout.IsTree)
    (otherTree : other.IsTree) (top_holds : layout.Holds top)
    (sameParents : ∀ key, layout.Holds key → other.Holds key →
      (layout key).map (·.parent) = (other key).map (·.parent)) : layout.Confines other top := by
  intro key within
  refine otherTree.induction (motive := fun key => other.Within top key → layout.Holds key →
    layout.Within top key) key within.holds ?_ ?_ within
  · intro key isRoot within _
    obtain rfl := isRoot.within_iff.mp within
    exact isTree.within_self top_holds
  · intro key parent isChild _ inductionHypothesis within holds
    rcases (within_iff_of_isChild isChild otherTree).mp within with rfl | higher
    · exact isTree.within_self top_holds
    · have isChild' : layout.IsChild key parent := by
        rwa [isChild_iff, sameParents key holds isChild.holds, ← isChild_iff]
      exact isChild'.within (inductionHypothesis higher (isTree.parent_holds isChild'))

namespace Buffer

variable {base : Store C} {changes : Changes C} {buffer : Buffer C} {key top : Key}
  {above : Option Key}

/-- A tree-reference that was put into the overlay is restored. -/
theorem Records.restored
    (records : buffer.Records base (changes.place top ⟨above, .treeReference ⟨base.id, top⟩⟩))
    (wellFormed : base.WellFormed) (returns : changes.Returns base top above) :
    ∃ after, (Buffer.restore top).effect buffer = (.ok (), after) ∧
      after.Records base (changes.restored base top above) ∧
      (changes.restored base top above).Sound base := by
  obtain ⟨after, restored, records', restoring, alone⟩ :=
    records.restore wellFormed (returns.enters.restoring returns.sound returns.isTree)
  exact ⟨after, restored, records', returns.sound_restored wellFormed.isTree restoring alone⟩

/-- After a run without stored tree-references, as long as the base nodes that are shown have their base
parents, an update of such a node with a reference to itself succeeds and undoes all edits at and below
it. What was added there is gone and what was deleted, edited or inserted again is as in the base, while
the node keeps its place and all other nodes stay as they were. -/
theorem restores_update (reachable : base.Reachable) (allContent : base.AllContent)
    (run : PlainRun base buffer)
    (sameParents : ∀ other, (buffer.tree.contains other).result = .ok true →
      (base.tree.contains other).result = .ok true →
      (buffer.tree.parent other).result = (base.tree.parent other).result)
    (contains : (buffer.tree.contains key).result = .ok true)
    (backed : (base.tree.contains key).result = .ok true) :
    ∃ after old keys,
      (update key (.treeReference ⟨base.id, key⟩)).effect buffer = (.ok (), after) ∧
      (buffer.tree.keysFrom key).result = .ok old ∧ (base.tree.keysFrom key).result = .ok keys ∧
      base.tree.Restores buffer.tree after.tree key old keys := by
  have wellFormed := reachable.wellFormed
  obtain ⟨changes, records, whole⟩ := isWhole_of_plainRun wellFormed allContent run
  have shows := records.shows allContent wellFormed whole.toSound
  have holds := (shows.contains_iff key).mp contains
  have top_holds := (wellFormed.shows.contains_iff key).mp backed
  have confines : (changes.shown base).Confines base.layout key := by
    refine Layout.confines_of_sameParents shows.isTree wellFormed.isTree holds fun other here there => ?_
    have same := sameParents other ((shows.contains_iff other).mpr here)
      ((wellFormed.shows.contains_iff other).mpr there)
    rw [shows.parent, wellFormed.shows.parent] at same
    obtain ⟨standing, found⟩ := here
    obtain ⟨standing', found'⟩ := there
    rw [found, found'] at same ⊢
    exact congrArg some (Except.ok.inj same)
  have checked : (buffer.checkPayload (.treeReference ⟨base.id, key⟩)).result = .ok () := by
    refine result_checkPayload records ?_
    rintro _ ⟨⟩
    exact ⟨rfl, top_holds⟩
  have stored : (checkUpdatedReference key (.treeReference ⟨base.id, key⟩ : Payload C)).result =
      .ok () := Read.result_require_of_true (decide_eq_true rfl)
  obtain ⟨prepared, middle, last, above, old, same, records', unfolded, enters, found, -⟩ :=
    exists_update records whole.toSound wellFormed allContent checked stored holds
  have returns : last.Returns base key above := by
    refine ⟨unfolded.sound, unfolded.intact whole.intact, enters, records'.isTree_overlay,
      fun other within inside => ?_⟩
    rw [← unfolded.sound.within_shown_iff inside, unfolded.shown_eq]
    refine confines other within ?_
    rw [← unfolded.shown_eq]
    exact Changes.holds_shown_of_overlay inside
  obtain ⟨after, restored, records'', sound⟩ := records'.restored wellFormed returns
  have shows' := records''.shows allContent wellFormed sound
  rw [returns.shown_restored wellFormed.isTree, unfolded.shown_eq] at shows'
  have isParent : ∀ parent, above = some parent ↔ (changes.shown base).IsChild key parent := by
    intro parent
    rw [← unfolded.shown_eq, Changes.isChild_shown_of_overlay ⟨_, found⟩, Layout.isChild_iff, found,
      Option.map_some, Option.some.injEq]
  refine ⟨after, _, _, same.trans restored, shows.result_keysFrom holds,
    wellFormed.shows.result_keysFrom top_holds, ?_⟩
  exact shows.restores_of_graft wellFormed.shows shows' confines holds top_holds isParent
    (shows.result_keysFrom holds) (wellFormed.shows.result_keysFrom top_holds)

/-- A chain of four nodes has lost its lower half, and its second node has been edited and has a new child. -/
def overgrown : List (BufferEdit String) :=
  [.delete (.number 3), .insert (some (.number 2)) (.exactly (.number 9)) (.content "new"),
    .update (.number 2) (.content "edited")]

/-- The second node is restored. It keeps its place, its new child is gone and the lower half is back. -/
theorem restores_update_longChain :
    let buffer := ((overgrown.mapM BufferEdit.edit).effect (unchanged (.store longChain))).2
    longChain.Reachable ∧ longChain.AllContent ∧ PlainRun longChain buffer ∧
      (∀ other, (buffer.tree.contains other).result = .ok true →
        (longChain.tree.contains other).result = .ok true →
        (buffer.tree.parent other).result = (longChain.tree.parent other).result) ∧
      (buffer.tree.contains (.number 2)).result = .ok true ∧
      (longChain.tree.contains (.number 2)).result = .ok true ∧
      ∃ after, (update (.number 2) (.treeReference ⟨⟨1⟩, .number 2⟩)).effect buffer =
          (.ok (), after) ∧
        longChain.tree.Restores buffer.tree after.tree (.number 2) [.number 2, .number 9]
          [.number 2, .number 3, .number 4] := by
  intro buffer
  have reachable : longChain.Reachable := Store.reachable_ofEdits ⟨1⟩ _
  have allContent : longChain.AllContent := Store.allContent_iff_entries.mpr (by decide +kernel)
  have ok : (overgrown.mapM BufferEdit.edit).effect (unchanged (.store longChain)) =
      (.ok [none, some (.number 9), none], buffer) := Edit.effect_eq_of_result (by decide +kernel)
  have run : PlainRun longChain buffer :=
    .mapM (.fresh {} none) (by simp [overgrown, BufferEdit.Plain, Payload.isTreeReference]) ok
  have sameParents : ∀ other, (buffer.tree.contains other).result = .ok true →
      (longChain.tree.contains other).result = .ok true →
      (buffer.tree.parent other).result = (longChain.tree.parent other).result := by
    -- the base has four keys, and what the buffer shows of them is below its base parent
    have all : ∀ other ∈ longChain.keys, (buffer.tree.contains other).result = .ok true →
        (buffer.tree.parent other).result = (longChain.tree.parent other).result := by
      decide +kernel
    exact fun other contains backed =>
      all other (Store.mem_keys_iff.mpr (Store.contains_iff_holds.mp (Except.ok.inj backed))) contains
  have contains : (buffer.tree.contains (.number 2)).result = .ok true := by decide +kernel
  have backed : (longChain.tree.contains (.number 2)).result = .ok true := by decide +kernel
  refine ⟨reachable, allContent, run, sameParents, contains, backed, ?_⟩
  obtain ⟨after, old, keys, updated, told, baseTold, restores⟩ :=
    restores_update reachable allContent run sameParents contains backed
  have told' : (buffer.tree.keysFrom (.number 2)).result = .ok [.number 2, .number 9] := by
    decide +kernel
  have baseTold' : (longChain.tree.keysFrom (.number 2)).result =
      .ok [.number 2, .number 3, .number 4] := by decide +kernel
  rw [told] at told'
  rw [baseTold] at baseTold'
  cases told'
  cases baseTold'
  exact ⟨after, updated, restores⟩

end Buffer

end VersionedTrees
