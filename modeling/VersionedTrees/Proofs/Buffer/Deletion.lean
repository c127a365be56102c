import VersionedTrees.Proofs.Buffer.CoherentRuns

/-!
# Deletions in a change buffer

A deletion brings a key into the overlay and removes the overlay subtree there, and lists the base
subtrees of the lazy nodes in it as deleted. What a buffer shows below a lazy node is part of the base
subtree of that node, but the converse fails: a part of it may have been moved elsewhere, as a lazy
node of its own, and what is below that one is listed as deleted with the rest. So a deletion takes
out exactly the subtree that is shown if no key strays from it (`Buffer.sheds_delete_iff`).
-/

namespace VersionedTrees

variable {C : Type}

namespace Tree

/-- The subtree of a key goes from a tree, and all else stays as it was. -/
structure Sheds (before after : Tree C) (top : Key) (keys : List Key) : Prop where
  gone : ∀ key ∈ keys, (after.contains key).result = .ok false
  contains : ∀ key ∉ keys, (after.contains key).result = (before.contains key).result
  node : ∀ key ∉ keys, (after.node key).result = (before.node key).result
  parent : ∀ key ∉ keys, (after.parent key).result = (before.parent key).result
  children : ∀ key ∉ keys, ∀ children, (before.children key).result = .ok children →
    (after.children key).result = .ok (children.filter (· ≠ top))

/-- A tree from whose layout a subtree is pruned sheds the keys that were told there. -/
theorem Shows.sheds_of_prune {before after : Tree C} {layout : Layout C} {top : Key}
    {keys : List Key} (shows : before.Shows layout) (shows' : after.Shows (layout.prune top))
    (mem_iff : ∀ key, key ∈ keys ↔ layout.Within top key) : before.Sheds after top keys where
  gone key inside := by
    rw [shows'.contains, Layout.prune_of_within ((mem_iff key).mp inside)]
    rfl
  contains key outside := by
    rw [mem_iff] at outside
    rw [shows'.contains, shows.contains, Layout.prune_of_not_within outside]
  node key outside := by
    rw [mem_iff] at outside
    rw [shows'.node, shows.node, Layout.prune_of_not_within outside]
  parent key outside := by
    rw [mem_iff] at outside
    rw [shows'.parent, shows.parent, Layout.prune_of_not_within outside]
  children key outside children told := by
    rw [mem_iff] at outside
    rw [shows.children] at told
    split at told
    case isFalse => cases told
    case isTrue holds =>
      cases told
      rw [shows'.children, Layout.prune_of_not_within outside, if_pos holds]
      refine congrArg Except.ok (eq_of_ordered (shows'.listed.ordered key)
        ((shows.listed.ordered key).filter _) fun child => ?_)
      rw [shows'.listed.mem_iff, Layout.isChild_prune_iff, List.mem_filter, shows.listed.mem_iff]
      refine and_congr_right fun isChild => ?_
      rw [Layout.within_iff_of_isChild isChild shows.isTree, or_iff_left outside, eq_comm]
      simp

end Tree

namespace Changes

variable {base : Store C} {changes : Changes C} {top key : Key}

/-- Below a key that is not in the overlay stands only what the base has there. -/
theorem Sound.within_of_within_shown (sound : changes.Sound base) (isTree : base.layout.IsTree)
    (absent : changes.overlay top = none) (within : (changes.shown base).Within top key) :
    base.layout.Within top key := by
  have isTree' := sound.isTree_shown isTree
  have self : base.layout.Within top top := by
    rcases holds_shown_cases within.top_holds with inside | ⟨-, -, there⟩
    · exact absurd inside (Layout.not_holds_iff.mpr absent)
    · exact isTree.within_self there
  have holds := within.holds
  revert within
  refine isTree'.induction key holds ?_ ?_
  · intro key isRoot within
    rwa [← isRoot.within_iff.mp within]
  · intro key parent isChild _ inductionHypothesis within
    rcases (Layout.within_iff_of_isChild isChild isTree').mp within with rfl | above
    · exact self
    · rcases sound.isChild_shown_iff.mp isChild with inside | ⟨-, isChild', -⟩
      · -- an overlay node has nothing above it but overlay nodes
        have inside := sound.isTree.parent_holds inside
        exact absurd ((sound.within_shown_iff inside).mp above).top_holds
          (Layout.not_holds_iff.mpr absent)
      · exact isChild'.within (inductionHypothesis above)

/-- What strays is shown. -/
theorem Strays.holds_shown (strays : changes.Strays base top key) :
    (changes.shown base).Holds key := by
  obtain ⟨node, -, -, below⟩ := strays.below
  exact ReadsBack.holds_shown (.inr ⟨strays.absent, strays.kept⟩) below.holds

/-- What strays from the subtree of a key, and what does not, is the same after the key has been
reached: only nodes above it have been opened. -/
theorem Sound.strays_iff_of_unfolded {next : Changes C} {after : Buffer C} (sound : changes.Sound base)
    (isTree : base.layout.IsTree) (unfolded : Buffer.Unfolded base changes after next)
    (opens : Buffer.Opens changes next fun other =>
      changes.overlay top = none ∧ other ≠ top ∧ base.layout.Within other top) :
    next.Strays base top key ↔ changes.Strays base top key := by
  have deleted_eq := unfolded.deleted_eq
  have shown_eq := unfolded.shown_eq
  constructor
  · rintro ⟨absent, kept, outside, node, within, back, below⟩
    rw [deleted_eq] at kept
    rw [shown_eq] at outside within
    refine ⟨?_, kept, outside, node, within, unfolded.readsBack node back, below⟩
    rw [← Layout.not_holds_iff] at absent ⊢
    exact mt (unfolded.holds key) absent
  · rintro ⟨absent, kept, outside, node, within, back, below⟩
    -- nothing above the key has been opened that is also below the node
    have unopened : ∀ {other}, base.layout.Within node other → changes.ReadsBack other →
        next.ReadsBack other := by
      intro other below back
      by_contra gone
      obtain ⟨absent, different, above⟩ := opens other back gone
      exact different (above.antisymm
        ((sound.within_of_within_shown isTree absent within).trans below))
    have back' := unopened (isTree.within_self below.top_holds) back
    refine ⟨?_, by rwa [deleted_eq], by rwa [shown_eq], node, by rwa [shown_eq], back', below⟩
    rw [← Layout.not_holds_iff]
    intro inside
    rcases below.holds.isRoot_or_isChild with isRoot | ⟨parent, isChild⟩
    · rw [← isRoot.within_iff.mp below] at outside
      exact outside within
    · rcases (Layout.within_iff_of_isChild isChild isTree).mp below with rfl | above
      · exact outside within
      · have backAbove := sound.covered key parent absent kept isChild
        rw [← deleted_eq] at kept
        exact unfolded.sound.exclusive key parent inside kept isChild (unopened above backAbove)

end Changes

namespace Buffer

variable {base : Store C} {buffer : Buffer C} {key : Key}

/-- A key that is shown can be deleted. What strays from its subtree is not shown any more, and all else
as if the subtree had been taken out. -/
theorem exists_delete {changes : Changes C} (records : buffer.Records base changes)
    (sound : changes.Sound base) (wellFormed : base.WellFormed) (allContent : base.AllContent)
    (holds : (changes.shown base).Holds key) :
    ∃ after final, (delete key).effect buffer = (.ok (), after) ∧ after.Records base final ∧
      final.Sound base ∧
      (∀ other, changes.Strays base key other → final.shown base other = none) ∧
      ∀ other, ¬ changes.Strays base key other →
        final.shown base other = (changes.shown base).prune key other := by
  have isTree := wellFormed.isTree
  obtain ⟨middle, next, reached, unfolded, inside, opens⟩ :=
    exists_reach records sound wellFormed allContent holds
  obtain ⟨after, removed, records'⟩ :=
    unfolded.records.removeOverlaySubtree wellFormed unfolded.sound.admits inside
  have strays_iff : ∀ other, next.Strays base key other ↔ changes.Strays base key other :=
    fun _ => sound.strays_iff_of_unfolded isTree unfolded opens
  refine ⟨after, _, (Edit.effect_bind_of_ok reached).trans removed, records',
    unfolded.sound.remove isTree key, fun other strays => ?_, fun other stays => ?_⟩
  · exact unfolded.sound.shown_remove_of_strays isTree inside ((strays_iff other).mpr strays)
  · rw [unfolded.sound.shown_remove_of_not_strays isTree inside (mt (strays_iff other).mp stays),
      unfolded.shown_eq]

/-- After a clean run every key that a buffer contains can be deleted. The keys that were told in its
subtree are gone then, and all else is as it was exactly if no key strays from that subtree. -/
theorem sheds_delete_iff (reachable : base.Reachable) (allContent : base.AllContent)
    (run : CleanRun base buffer) (contains : (buffer.tree.contains key).result = .ok true) :
    ∃ after keys, (delete key).effect buffer = (.ok (), after) ∧
      (buffer.tree.keysFrom key).result = .ok keys ∧
      (∀ other ∈ keys, (after.tree.contains other).result = .ok false) ∧
      (buffer.tree.Sheds after.tree key keys ↔ ∀ other, ¬ buffer.changes.Strays base key other) := by
  have wellFormed := reachable.wellFormed
  obtain ⟨changes, records, sound⟩ := isSound_of_cleanRun wellFormed allContent run
  have shows := records.shows allContent wellFormed sound
  have holds : (changes.shown base).Holds key := by
    rw [shows.contains, Except.ok.injEq] at contains
    exact Layout.holds_iff_isSome.mpr contains
  have mem_iff : ∀ other, _ ↔ (changes.shown base).Within key other := fun other =>
    shows.listed.mem_preorder_iff shows.isTree holds (shows.exhausts holds (Nat.le_refl _))
  obtain ⟨after, final, deleted, records', sound', lost, kept⟩ :=
    exists_delete records sound wellFormed allContent holds
  have shows' := records'.shows allContent wellFormed sound'
  refine ⟨after, _, deleted, shows.result_keysFrom holds, fun other told => ?_, ?_⟩
  · have within := (mem_iff other).mp told
    rw [shows'.contains, kept other fun strays => strays.outside within, Layout.prune_of_within within]
    rfl
  rw [records.changes_eq]
  constructor
  · intro sheds other strays
    have same := sheds.contains other (mt (mem_iff other).mp strays.outside)
    rw [shows'.contains, lost other strays, shows.contains,
      Layout.holds_iff_isSome.mp strays.holds_shown] at same
    cases same
  · intro stays
    have shown_eq : final.shown base = (changes.shown base).prune key :=
      funext fun other => kept other (stays other)
    rw [shown_eq] at shows'
    exact shows.sheds_of_prune shows' mem_iff

/-- From a chain nothing strays when its middle is deleted. -/
theorem sheds_delete_iff_chain :
    let buffer := unchanged (.store Store.chain)
    Store.chain.Reachable ∧ Store.chain.AllContent ∧ CleanRun Store.chain buffer ∧
      (buffer.tree.contains (.number 2)).result = .ok true ∧
      ∃ after keys, (delete (.number 2)).effect buffer = (.ok (), after) ∧
        (buffer.tree.keysFrom (.number 2)).result = .ok keys ∧
        (∀ other ∈ keys, (after.tree.contains other).result = .ok false) ∧
        (buffer.tree.Sheds after.tree (.number 2) keys ↔
          ∀ other, ¬ buffer.changes.Strays Store.chain (.number 2) other) := by
  intro buffer
  have reachable := Store.reachable_ofEdits ⟨1⟩ Store.chainEdits
  have run : CleanRun Store.chain buffer := .fresh {} none
  have contains : (buffer.tree.contains (.number 2)).result = .ok true := by decide +kernel
  exact ⟨reachable, Store.allContent_chain, run, contains,
    sheds_delete_iff reachable Store.allContent_chain run contains⟩

/-- A chain of four nodes. -/
def longChain : Store String :=
  Store.ofEdits ⟨1⟩ (Store.chainEdits ++
    [.insert (some (.number 3)) (.exactly (.number 4)) (.content "y")])

/-- The lower half of the chain is moved below the root, to stand for its base subtree there, and then
the node above it is made to stand for its base subtree as well. -/
def splitChain : List (BufferEdit String) :=
  [.insert (some (.number 1)) (.exactly (.number 3)) (.treeReference ⟨⟨1⟩, .number 3⟩),
    .update (.number 2) (.treeReference ⟨⟨1⟩, .number 2⟩)]

/-- The upper half of the chain has no children then. With it goes the end of the chain, which is shown
below the lower half and strays. -/
theorem not_sheds_of_splitChain :
    let run := splitChain.mapM BufferEdit.edit
    let buffer := (run.effect (unchanged (.store longChain))).2
    let after := ((delete (.number 2)).effect buffer).2
    longChain.Reachable ∧ longChain.AllContent ∧
      (run.effect (unchanged (.store longChain))).1 = .ok [some (.number 3), none] ∧
      (buffer.tree.contains (.number 2)).result = .ok true ∧
      (buffer.tree.keysFrom (.number 2)).result = .ok [.number 2] ∧
      (buffer.tree.children (.number 3)).result = .ok [.number 4] ∧
      ((delete (.number 2)).effect buffer).1 = .ok () ∧
      (after.tree.contains (.number 3)).result = .ok true ∧
      (after.tree.contains (.number 4)).result = .ok false ∧
      ¬ buffer.tree.Sheds after.tree (.number 2) [.number 2] := by
  intro run buffer after
  have before : (buffer.tree.contains (.number 4)).result = .ok true := by decide +kernel
  have lost : (after.tree.contains (.number 4)).result = .ok false := by decide +kernel
  refine ⟨Store.reachable_ofEdits ⟨1⟩ _, Store.allContent_iff_entries.mpr (by decide +kernel),
    by decide +kernel, by decide +kernel, by decide +kernel, by decide +kernel, by decide +kernel,
    by decide +kernel, lost, fun sheds => ?_⟩
  have same := sheds.contains (.number 4) (by decide)
  rw [lost, before] at same
  cases same

end Buffer

end VersionedTrees
