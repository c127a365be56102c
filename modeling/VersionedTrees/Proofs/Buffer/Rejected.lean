import VersionedTrees.Proofs.Buffer.Failures
import VersionedTrees.Proofs.Buffer.Invariants

/-!
# Deltas that a change buffer rejects

A delta takes the place of a buffer's changes, which are dropped first. Then its nodes are taken over
one by one, and nothing is taken back if one of them is refused or if the nodes do not go together in
the end. What is left is told by the base and the delta (`BufferEdit.leaves`): a delta for another base
leaves the buffer as it is, one that is refused at its root leaves no changes
(`Store.takenFrom_of_withheld_root`), and any other leaves the part of it that was taken over, with
nothing deleted. The buffer reads like its base if that part repeats what the base has
(`Changes.Mirrors`), and only then (`Buffer.restored_of_rejected_iff`).
-/

namespace VersionedTrees

variable {C : Type}

/-- Two trees that show layouts and answer alike show the same layout. -/
theorem Tree.SameReads.layout_eq {left right : Tree C} {layout other : Layout C}
    (same : left.SameReads right) (first : left.Shows layout) (second : right.Shows other) :
    layout = other := by
  funext key
  have node := same.node key
  have parent := same.parent key
  rw [first.node, second.node] at node
  rw [first.parent, second.parent] at parent
  cases found : layout key with
  | none =>
      rw [found] at node
      cases found' : other key with
      | none => rfl
      | some standing =>
          rw [found'] at node
          cases node
  | some standing =>
      rw [found] at node parent
      cases found' : other key with
      | none =>
          rw [found'] at node
          cases node
      | some standing' =>
          rw [found'] at node parent
          obtain ⟨above, payload⟩ := standing
          cases parent
          cases node
          rfl

/-! ## Changes that are not seen -/

namespace Changes

variable {base : Store C} {changes : Changes C}

/-- Changes repeat what the base has. Every overlay node stands in the base as it does in the overlay,
and if it is not lazy then all of its base children are in the overlay. No other base node is
deleted. -/
structure Mirrors (base : Store C) (changes : Changes C) : Prop where
  stands : ∀ key standing, changes.overlay key = some standing →
    base.layout key = some ⟨standing.parent, base.lend standing.payload⟩
  children : ∀ key child, changes.overlay.Holds key → ¬ changes.IsLazy key →
    base.layout.IsChild child key → changes.overlay.Holds child
  kept : ∀ key, changes.overlay key = none → base.layout.Holds key → ¬ changes.deleted key

/-- No changes repeat what the base has. -/
theorem mirrors_untouched (base : Store C) : (untouched : Changes C).Mirrors base where
  stands _ _ found := nomatch found
  children _ _ := fun ⟨_, found⟩ => (nomatch found)
  kept _ _ _ := not_false

/-- Valid changes that repeat what the base has are sound. -/
theorem Mirrors.sound (mirrors : changes.Mirrors base) (valid : changes.Valid base)
    (isTree : base.layout.IsTree) : changes.Sound base where
  toValid := valid
  covered key parent absent kept isChild := by
    by_cases holds : changes.overlay.Holds parent
    · by_contra back
      exact Layout.holds_iff_ne_none.mp
        (mirrors.children parent key holds (fun isLazy => back (.inl isLazy)) isChild) absent
    · have absent := Layout.not_holds_iff.mp holds
      exact .inr ⟨absent, mirrors.kept parent absent (isTree.parent_holds isChild)⟩
  rootCovered key absent kept isRoot := by
    intro other
    rw [← Layout.not_holds_iff]
    intro holds
    -- the root of the overlay stands in the base as its root
    obtain ⟨top, ⟨payload, found⟩, -⟩ := valid.isTree.exists_root holds
    obtain rfl := isTree.single key top isRoot ⟨_, mirrors.stands top _ found⟩
    rw [absent] at found
    cases found
  exclusive key parent holds kept isChild back := by
    obtain ⟨⟨above, payload⟩, found⟩ := holds
    obtain ⟨payload', found'⟩ := isChild
    have same : above = some parent := by
      rw [mirrors.stands key _ found, Option.some.injEq, Standing.mk.injEq] at found'
      exact found'.1
    subst same
    have isChild : changes.overlay.IsChild key parent := ⟨payload, found⟩
    rcases back with isLazy | ⟨absent, -⟩
    · exact valid.leaf parent key isLazy isChild
    · exact Layout.holds_iff_ne_none.mp (valid.isTree.parent_holds isChild) absent

/-- Valid changes are not seen exactly if they repeat what the base has. -/
theorem Valid.mirrors_iff (valid : changes.Valid base) (isTree : base.layout.IsTree) :
    changes.Mirrors base ↔ changes.Sound base ∧ changes.shown base = base.layout := by
  constructor
  · intro mirrors
    refine ⟨mirrors.sound valid isTree, funext fun key => ?_⟩
    cases found : changes.overlay key with
    | some standing => rw [shown_of_overlay found, mirrors.stands key standing found]
    | none =>
        by_cases deleted : changes.deleted key
        · rw [shown_of_deleted found deleted]
          by_contra there
          exact mirrors.kept key found (Layout.holds_iff_ne_none.mpr (Ne.symm there)) deleted
        · exact shown_of_kept found deleted
  · rintro ⟨sound, shown_eq⟩
    refine ⟨fun key standing found => ?_, fun key child holds notLazy isChild => ?_,
      fun key absent holds deleted => ?_⟩
    · rw [← shown_eq, shown_of_overlay found]
    · rw [← shown_eq] at isChild
      rcases sound.isChild_shown_iff.mp isChild with inside | ⟨back, -, -⟩
      · exact inside.holds
      · rcases back with isLazy | ⟨absent, -⟩
        · exact absurd isLazy notLazy
        · exact absurd absent (Layout.holds_iff_ne_none.mp holds)
    · rw [← shown_eq] at holds
      exact Layout.holds_iff_ne_none.mp holds (shown_of_deleted absent deleted)

end Changes

/-! ## What a delta that is refused leaves -/

/-- The changes that an edit leaves if it renews a buffer and fails, by the changes before. -/
def BufferEdit.leaves (base : Store C) (before : Changes C) : BufferEdit C → Changes C
  | .replace delta => .overlaid (base.takenFrom delta)
  | .applyDelta delta =>
    if delta.base = base.id then .overlaid (base.takenFrom delta.tree.tree) else before
  | .insert _ _ _ | .update _ _ | .delete _ | .expandAll _ | .reset => before

/-- From a delta that is refused at its root nothing is taken. -/
theorem Store.takenFrom_of_withheld_root {base : Store C} {delta : Tree C} {root : Key}
    {rest : List (Option (Layout.Row C))} (rootKey : delta.rootKey.result = .ok (some root))
    (withheld : base.offered delta (root, none) = none :: rest) :
    base.takenFrom delta = fun _ => none := by
  rw [takenFrom, Tree.items, rootKey]
  change Layout.plantOffers _ (List.flatMap _ (_ :: _)) = _
  rw [List.flatMap_cons, withheld]
  rfl

namespace Buffer

variable {base : Store C} {buffer after : Buffer C} {edit : BufferEdit C} {delta : Tree C}
  {error : TreeError}

/-- What renews a buffer and fails leaves the buffer itself, or an overlay with nothing deleted. -/
theorem fills_of_failed (wellFormed : base.WellFormed) (allContent : base.AllContent)
    (backing : buffer.backing = .store base) (renews : edit.Renews)
    (failed : edit.edit.effect buffer = (.error error, after)) :
    after = buffer ∧ edit.leaves base buffer.changes = buffer.changes ∨
      ∃ layout, after.Fills base layout ∧ edit.leaves base buffer.changes = .overlaid layout := by
  cases edit with
  | insert parent placement payload => exact renews.elim
  | update key payload => exact renews.elim
  | delete key => exact renews.elim
  | expandAll key => exact renews.elim
  | reset => cases Edit.effect_map_eq_error failed
  | replace delta =>
      have fills := fills_of_failed_replace backing wellFormed allContent
        (Edit.effect_map_eq_error failed)
      exact .inr ⟨_, fills, rfl⟩
  | applyDelta delta =>
      have refused := Edit.effect_map_eq_error failed
      have id : buffer.backingTree.id = base.id := by
        rw [backingTree, backing]
        rfl
      rcases effect_applyDelta delta buffer with ⟨made, replaced⟩ | ⟨other, error, unchanged⟩
      · have fills := fills_of_failed_replace backing wellFormed allContent
          (replaced.symm.trans refused)
        exact .inr ⟨_, fills, if_pos (made.trans id)⟩
      · cases unchanged.symm.trans refused
        exact .inl ⟨rfl, if_neg fun made => other (made.trans id.symm)⟩

/-- A buffer with valid changes reads like a tree that shows a layout exactly if the changes are sound
and show that layout. -/
theorem Records.sameReads_iff {changes : Changes C} {tree : Tree C} {layout : Layout C}
    (records : buffer.Records base changes) (allContent : base.AllContent)
    (wellFormed : base.WellFormed) (valid : changes.Valid base) (shows : tree.Shows layout) :
    buffer.tree.SameReads tree ↔ changes.Sound base ∧ changes.shown base = layout := by
  constructor
  · intro same
    have sound := (records.coherent_iff allContent wellFormed valid).mp (same.coherent shows.coherent)
    exact ⟨sound, same.layout_eq (records.shows allContent wellFormed sound) shows⟩
  · rintro ⟨sound, rfl⟩
    exact (records.shows allContent wellFormed sound).sameReads shows

/-- After a tidy run, a delta that is rejected leaves the buffer as it was or with nothing deleted, and
what it leaves is told by the base, the delta and the changes before. All reads are as they were, or all
as in the base, exactly if what is left shows what was shown before or repeats what the base has. -/
theorem restored_of_rejected_iff (reachable : base.Reachable) (allContent : base.AllContent)
    (run : TidyRun base buffer) (renews : edit.Renews)
    (failed : edit.edit.effect buffer = (.error error, after)) :
    (after = buffer ∨ ∀ key, ¬ after.changes.deleted key) ∧
      after.changes = edit.leaves base buffer.changes ∧
      (after.tree.SameReads buffer.tree ∨ after.tree.SameReads base.tree ↔
        (edit.leaves base buffer.changes).Sound base ∧
            (edit.leaves base buffer.changes).shown base = buffer.changes.shown base ∨
          (edit.leaves base buffer.changes).Mirrors base) := by
  have wellFormed := reachable.wellFormed
  obtain ⟨before, recordsBefore, sound⟩ := isSound_of_tidyRun wellFormed allContent run
  have ended : (after = buffer ∨ ∀ key, ¬ after.changes.deleted key) ∧
      ∃ changes, after.Records base changes ∧ changes.Valid base ∧
        edit.leaves base buffer.changes = changes := by
    rcases fills_of_failed wellFormed allContent recordsBefore.backing renews failed with
      ⟨rfl, left⟩ | ⟨layout, fills, left⟩
    · rw [recordsBefore.changes_eq] at left ⊢
      exact ⟨.inl rfl, before, recordsBefore, sound.toValid, left⟩
    · refine ⟨.inr ?_, _, fills.records, fills.valid, left⟩
      rw [fills.records.changes_eq]
      exact fun _ => not_false
  obtain ⟨kept, changes, records, valid, left⟩ := ended
  refine ⟨kept, records.changes_eq.trans left.symm, ?_⟩
  rw [left, recordsBefore.changes_eq, valid.mirrors_iff wellFormed.isTree,
    records.sameReads_iff allContent wellFormed valid
      (recordsBefore.shows allContent wellFormed sound),
    records.sameReads_iff allContent wellFormed valid wellFormed.shows]

/-- A delta that is refused at its root leaves a chain as it is. -/
theorem restored_of_rejected_iff_root :
    let delta := Store.ofEdits ⟨7⟩
      [.insert none (.exactly (.number 1)) (.nodeReference ⟨⟨1⟩, .number 404⟩)]
    let edit : BufferEdit String := .replace delta.tree
    let buffer := unchanged (.store Store.chain)
    let after := (edit.edit.effect buffer).2
    Store.chain.Reachable ∧ Store.chain.AllContent ∧ TidyRun Store.chain buffer ∧ edit.Renews ∧
      edit.edit.effect buffer = (.error (.nodeNotFound (.number 404)), after) ∧
      edit.leaves Store.chain buffer.changes = .untouched ∧
      (after.tree.SameReads buffer.tree ∨ after.tree.SameReads Store.chain.tree) := by
  intro delta edit buffer after
  have reachable := Store.reachable_ofEdits ⟨1⟩ Store.chainEdits
  have run : TidyRun Store.chain buffer := .clean (.fresh {} none)
  have failed : edit.edit.effect buffer = (.error (.nodeNotFound (.number 404)), after) :=
    Edit.effect_eq_of_result (by decide +kernel)
  have renews : edit.Renews := trivial
  obtain ⟨-, -, restored_iff⟩ :=
    restored_of_rejected_iff reachable Store.allContent_chain run renews failed
  -- the root refers to a node that the chain does not have
  have read : (delta.tree.payload (.number 1)).result =
      .ok (.nodeReference ⟨⟨1⟩, .number 404⟩) := by decide +kernel
  have withheld : Store.chain.offered delta.tree (.number 1, none) = [none] :=
    Store.offered_of_dangling read (by decide +kernel)
  have rootKey : delta.tree.rootKey.result = .ok (some (.number 1)) := by decide +kernel
  have leaves : edit.leaves Store.chain buffer.changes = .untouched :=
    congrArg Changes.overlaid (Store.takenFrom_of_withheld_root rootKey withheld)
  have mirrors : (edit.leaves Store.chain buffer.changes).Mirrors Store.chain := by
    rw [leaves]
    exact Changes.mirrors_untouched Store.chain
  exact ⟨reachable, Store.allContent_chain, run, renews, failed, leaves,
    restored_iff.mpr (.inr mirrors)⟩

/-- A delta whose root can be taken over, and whose other node cannot. -/
def tornEdits : List (StoreEdit String) :=
  [.insert none (.exactly (.number 1)) (.content "new"),
    .insert (some (.number 1)) (.exactly (.number 2)) (.nodeReference ⟨⟨1⟩, .number 404⟩)]

/-- That delta is rejected, and leaves its root in the place of the root of a chain. -/
theorem not_restored_of_tornEdits :
    let edit : BufferEdit String := .replace (Store.ofEdits ⟨7⟩ tornEdits).tree
    let buffer := unchanged (.store Store.chain)
    let ended := edit.edit.effect buffer
    Store.chain.Reachable ∧ Store.chain.AllContent ∧ TidyRun Store.chain buffer ∧ edit.Renews ∧
      ended.1 = .error (.nodeNotFound (.number 404)) ∧
      buffer.tree.root.result = .ok (some ⟨.number 1, .content "root"⟩) ∧
      ended.2.tree.root.result = .ok (some ⟨.number 1, .content "new"⟩) ∧
      ended.2.tree.keys.result = .ok [.number 1] ∧
      ¬ (ended.2.tree.SameReads buffer.tree ∨ ended.2.tree.SameReads Store.chain.tree) := by
  intro edit buffer ended
  have before : buffer.tree.root.result = .ok (some ⟨.number 1, .content "root"⟩) := by
    decide +kernel
  have backing : Store.chain.tree.root.result = .ok (some ⟨.number 1, .content "root"⟩) := by
    decide +kernel
  have afterwards : ended.2.tree.root.result = .ok (some ⟨.number 1, .content "new"⟩) := by
    decide +kernel
  refine ⟨Store.reachable_ofEdits _ _, Store.allContent_chain, .clean (.fresh {} none), trivial,
    by decide +kernel, before, afterwards, by decide +kernel, ?_⟩
  rintro (same | same)
  · exact absurd (afterwards.symm.trans (same.root.trans before)) (by decide)
  · exact absurd (afterwards.symm.trans (same.root.trans backing)) (by decide)

end Buffer

end VersionedTrees
