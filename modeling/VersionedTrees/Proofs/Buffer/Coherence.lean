import VersionedTrees.Proofs.Buffer.Reads

/-!
# Sound changes and coherent buffers

A buffer with sound changes is read as the layout that they show (`Buffer.Records.shows`). Nothing
less will do: among valid changes the sound ones are those with which a buffer reads as one coherent
tree (`Buffer.Records.coherent_iff`).
-/

namespace VersionedTrees

namespace Buffer

variable {C : Type} {base : Store C} {changes : Changes C} {buffer : Buffer C} {key parent : Key}

/-! ## Sound changes -/

/-- The root of a buffer is the overlay root, or the base root over an empty overlay. -/
theorem exists_getRoot (wellFormed : base.WellFormed) (admitted : changes.Admitted base)
    (records : buffer.Records base changes) :
    buffer.merged.getRoot.result = .ok none ∧
        (∀ key, changes.overlay key = none ∧ ((changes.shown base key).isSome →
          ¬ base.layout.IsRoot key)) ∨
      ∃ key side, buffer.merged.getRoot.result = .ok (some (buffer.merged.handle key side)) ∧
        SideOf base changes key (some side) ∧ (changes.shown base).IsRoot key := by
  have back : buffer.merged.back = base.tree := records.backingTree
  cases root : buffer.overlay.root with
  | some key =>
      have isRoot := (records.wellFormed.root key).mp root
      rw [records.overlay] at isRoot
      have shown : (changes.shown base).IsRoot key :=
        (Changes.isRoot_shown_of_overlay isRoot.holds).mpr isRoot
      obtain ⟨side, got, sideOf⟩ := exists_get admitted records key
      obtain ⟨side, rfl⟩ : ∃ found, side = some found := by
        rw [← Option.isSome_iff_exists, sideOf.isSome_iff]
        exact Layout.holds_iff_isSome.mp shown.holds
      have rootKey : buffer.merged.front.rootKey.result = .ok (some key) := congrArg Except.ok root
      exact .inr ⟨key, side, (Read.result_bind_of_ok rootKey).trans got, sideOf, shown⟩
  | none =>
      have rootKey : buffer.merged.front.rootKey.result = .ok none := congrArg Except.ok root
      have empty := records.wellFormed.layout_of_no_root root
      rw [records.overlay] at empty
      have baseRoot : buffer.merged.back.rootKey.result = .ok base.root := by
        rw [back]
        rfl
      have onward : buffer.merged.getRoot.result = _ :=
        (Read.result_bind_of_ok rootKey).trans (Read.result_bind_of_ok baseRoot)
      cases there : base.root with
      | none =>
          rw [there] at onward
          refine .inl ⟨onward, fun key => ⟨empty key, fun _ isRoot => ?_⟩⟩
          rw [← wellFormed.root, there] at isRoot
          cases isRoot
      | some key =>
          rw [there] at onward
          have isRoot := (wellFormed.root key).mp there
          by_cases deleted : changes.deleted key
          · refine .inl ⟨onward.trans ?_, fun other => ⟨empty other, fun shown isRoot' => ?_⟩⟩
            · exact congrArg Read.result (if_pos (records.contains_deleted.mpr deleted))
            · obtain rfl := wellFormed.isTree.single key other isRoot isRoot'
              rw [Changes.shown_of_deleted (empty key) deleted] at shown
              cases shown
          · refine .inr ⟨key, .back key, onward.trans ?_,
              .back (.inr ⟨empty key, deleted⟩) isRoot.holds,
              (Changes.isRoot_shown_of_kept (empty key) deleted).mpr isRoot⟩
            have kept : ¬ buffer.deleted.contains key = true := by
              rwa [records.contains_deleted]
            exact congrArg Read.result (if_neg kept)

theorem exists_root (allContent : base.AllContent) (wellFormed : base.WellFormed)
    (sound : changes.Sound base) (records : buffer.Records base changes) :
    ∃ found : Option Key, buffer.tree.rootKey.result = .ok found ∧
      buffer.tree.root.result = .ok (found.bind fun key =>
        (changes.shown base key).map fun standing => ⟨key, standing.payload⟩) ∧
      ∀ key, found = some key ↔ (changes.shown base).IsRoot key := by
  rcases exists_getRoot wellFormed sound.admits records with
    ⟨got, empty⟩ | ⟨key, side, got, sideOf, isRoot⟩
  · have rootNode : buffer.merged.rootNode.result = .ok none := Read.result_bind_of_ok got
    refine ⟨none, Read.result_bind_of_ok rootNode, rootNode, fun key => ?_⟩
    refine iff_of_false (fun same => by cases same) fun isRoot => ?_
    rcases Changes.holds_shown_cases isRoot.holds with inside | ⟨absent, kept, -⟩
    · exact Layout.not_holds_iff.mpr (empty key).1 inside
    · exact (empty key).2 (Layout.holds_iff_isSome.mp isRoot.holds)
        ((Changes.isRoot_shown_of_kept absent kept).mp isRoot)
  · have rootNode : buffer.merged.rootNode.result =
        .ok ((changes.shown base key).map fun standing => ⟨key, standing.payload⟩) :=
      (Read.result_bind_of_ok got).trans
        (result_materialize allContent sound.admits records sideOf)
    refine ⟨some key, ?_, rootNode, fun other => ?_⟩
    · refine (Read.result_bind_of_ok rootNode).trans ?_
      obtain ⟨payload, shown⟩ := isRoot
      rw [shown]
      rfl
    · constructor
      · rintro ⟨⟩
        exact isRoot
      · intro isRoot'
        rw [(sound.isTree_shown wellFormed.isTree).single key other isRoot isRoot']

theorem Records.span_eq (records : buffer.Records base changes) :
    buffer.tree.span = buffer.overlay.size + base.size := by
  rw [Buffer.tree, Buffer.view, View.tree, records.backing]
  rfl

/-- The way up from a shown key is no longer than the overlay and the base have nodes. -/
theorem depthAtMost_shown (records : buffer.Records base changes) :
    (changes.shown base).DepthAtMost buffer.tree.span := by
  intro key line isLine
  have all : ∀ key, (changes.shown base).Holds key → key ∈ buffer.overlay.keys ++ base.keys := by
    intro key holds
    rcases Changes.holds_shown_cases holds with inside | ⟨-, -, there⟩
    · refine List.mem_append_left _ (Store.mem_keys_iff.mpr ?_)
      rwa [records.overlay]
    · exact List.mem_append_right _ (Store.mem_keys_iff.mpr there)
  have bound := isLine.length_le all
  rw [List.length_append, Store.length_keys, Store.length_keys] at bound
  rwa [records.span_eq]

/-- The children of an overlay node with content are those of the overlay, the children of a node that is
read from the base are those of the base that are not deleted. -/
theorem listedBy_shown (records : buffer.Records base changes) (wellFormed : base.WellFormed)
    (sound : changes.Sound base) : (changes.shown base).ListedBy buffer.tree.childList := by
  have cases : ∀ key, (changes.overlay.Holds key ∧ ¬ changes.IsLazy key) ∨
      (changes.ReadsBack key ∧ base.layout.Holds key) ∨ changes.shown base key = none := by
    intro key
    by_cases absent : changes.shown base key = none
    · exact .inr (.inr absent)
    · rcases shown_cases sound.admits (Layout.holds_iff_ne_none.mpr absent) with front | back
      · exact .inl front
      · exact .inr (.inl back)
  constructor
  case ordered =>
    intro key
    rcases cases key with ⟨holds, notLazy⟩ | ⟨readsBack, holds⟩ | absent
    · rw [childList_of_overlay sound.admits records holds notLazy]
      exact records.wellFormed.listed.ordered key
    · rw [childList_of_readsBack wellFormed sound.admits records readsBack holds]
      exact (wellFormed.listed.ordered key).filter _
    · rw [childList_of_absent sound.admits records absent]
      exact List.Pairwise.nil
  case mem_iff =>
    intro key child
    rw [sound.isChild_shown_iff]
    rcases cases key with ⟨holds, notLazy⟩ | ⟨readsBack, holds⟩ | absent
    · rw [childList_of_overlay sound.admits records holds notLazy, mem_overlay_childList records]
      refine (or_iff_left fun back => ?_).symm
      rcases back.1 with isLazy | ⟨absent, -⟩
      · exact notLazy isLazy
      · exact Layout.not_holds_iff.mpr absent holds
    · rw [childList_of_readsBack wellFormed sound.admits records readsBack holds,
        mem_kept_childList wellFormed records, and_iff_right readsBack]
      refine (or_iff_right fun isChild => ?_).symm
      rcases readsBack with isLazy | ⟨absent, -⟩
      · exact sound.leaf key child isLazy isChild
      · exact Layout.not_holds_iff.mpr absent (sound.isTree.parent_holds isChild)
    · rw [childList_of_absent sound.admits records absent, List.mem_nil_iff, false_iff]
      have nothing := Layout.not_holds_iff.mpr absent
      rintro (isChild | ⟨readsBack, isChild, -⟩)
      · exact nothing (Changes.holds_shown_of_overlay (sound.isTree.parent_holds isChild))
      · exact nothing (readsBack.holds_shown (wellFormed.isTree.parent_holds isChild))

/-- A buffer with sound changes is read as the layout that they show. -/
theorem Records.shows (records : buffer.Records base changes) (allContent : base.AllContent)
    (wellFormed : base.WellFormed) (sound : changes.Sound base) :
    buffer.tree.Shows (changes.shown base) where
  isTree := sound.isTree_shown wellFormed.isTree
  depth := depthAtMost_shown records
  listed := listedBy_shown records wellFormed sound
  root := exists_root allContent wellFormed sound records
  node := result_node allContent sound.admits records
  contains := result_contains sound.admits records
  parent key := by
    cases shown : changes.shown base key with
    | none => exact result_parent_of_absent sound.admits records shown
    | some standing =>
        obtain ⟨above, payload⟩ := standing
        rw [result_parent wellFormed sound.admits records shown]
        cases above with
        | none => rfl
        | some parent =>
            have holds := (sound.isTree_shown wellFormed.isTree).parent_holds ⟨payload, shown⟩
            rw [Option.filter_some, if_pos (Layout.holds_iff_isSome.mp holds)]
  children key := by
    cases shown : changes.shown base key with
    | none => exact result_children_of_absent sound.admits records shown
    | some standing =>
        rcases shown_cases sound.admits ⟨standing, shown⟩ with ⟨holds, notLazy⟩ | ⟨back, holds⟩
        · rw [childList_of_overlay sound.admits records holds notLazy]
          exact result_children_of_overlay sound.admits records holds notLazy
        · rw [childList_of_readsBack wellFormed sound.admits records back holds]
          exact result_children_of_readsBack wellFormed sound.admits records back holds

/-! ## Coherent buffers -/

/-- The root key that is told is that of a shown root. -/
theorem isRoot_of_rootKey (allContent : base.AllContent) (wellFormed : base.WellFormed)
    (admitted : changes.Admitted base) (records : buffer.Records base changes)
    (told : buffer.tree.rootKey.result = .ok (some key)) : (changes.shown base).IsRoot key := by
  rcases exists_getRoot wellFormed admitted records with ⟨got, -⟩ | ⟨root, side, got, sideOf, isRoot⟩
  · have rootNode : buffer.merged.rootNode.result = .ok none := Read.result_bind_of_ok got
    have nothing : buffer.tree.rootKey.result = .ok none := Read.result_bind_of_ok rootNode
    rw [told] at nothing
    cases nothing
  · have rootNode : buffer.merged.rootNode.result =
        .ok ((changes.shown base root).map fun standing => ⟨root, standing.payload⟩) :=
      (Read.result_bind_of_ok got).trans (result_materialize allContent admitted records sideOf)
    obtain ⟨payload, shown⟩ := isRoot
    rw [shown] at rootNode
    have rootKey : buffer.tree.rootKey.result = .ok (some root) := Read.result_bind_of_ok rootNode
    rw [told, Except.ok.injEq, Option.some.injEq] at rootKey
    exact ⟨payload, rootKey ▸ shown⟩

/-- Among valid changes the sound ones are those that are read as one coherent tree. -/
theorem Records.coherent_iff (records : buffer.Records base changes)
    (allContent : base.AllContent) (wellFormed : base.WellFormed) (valid : changes.Valid base) :
    buffer.tree.Coherent ↔ changes.Sound base := by
  constructor
  · rintro ⟨keys, -, -, -, parent_iff, root_iff⟩
    have root_of_parentless : ∀ key payload, changes.shown base key = some ⟨none, payload⟩ →
        buffer.tree.rootKey.result = .ok (some key) := fun key payload shown =>
      (root_iff key).mp (result_parent wellFormed valid.admits records shown)
    refine ⟨valid, fun key parent absent kept isChild => ?_,
      fun key absent kept isRoot other => ?_, fun key parent holds kept isChild back => ?_⟩
    · obtain ⟨payload, there⟩ := isChild
      have shown := (Changes.shown_of_kept absent kept).trans there
      have told := result_parent wellFormed valid.admits records shown
      by_cases above : (changes.shown base parent).isSome = true
      · rw [Option.filter_some, if_pos above] at told
        obtain ⟨children, read, inside⟩ := (parent_iff key parent).mp told
        rcases shown_cases valid.admits (Layout.holds_iff_isSome.mpr above) with ⟨holds, notLazy⟩ | back
        · rw [result_children_of_overlay valid.admits records holds notLazy, Except.ok.injEq] at read
          subst read
          have isChild := (mem_overlay_childList records).mp inside
          exact absurd absent (Layout.holds_iff_ne_none.mp isChild.holds)
        · exact back.1
      · -- a node whose parent is not shown would be taken for the root
        rw [Option.filter_some, if_neg above] at told
        have isRoot := isRoot_of_rootKey allContent wellFormed valid.admits records ((root_iff key).mp told)
        exact absurd ⟨payload, shown⟩ isRoot.not_isChild
    · by_contra present
      obtain ⟨root, isRoot', -⟩ := valid.isTree.exists_root (Layout.holds_iff_ne_none.mpr present)
      obtain ⟨payload, there⟩ := isRoot
      have isRootShown : (changes.shown base).IsRoot root :=
        (Changes.isRoot_shown_of_overlay isRoot'.holds).mpr isRoot'
      obtain ⟨payload', shown'⟩ := isRootShown
      have told := root_of_parentless key payload ((Changes.shown_of_kept absent kept).trans there)
      rw [root_of_parentless root payload' shown', Except.ok.injEq, Option.some.injEq] at told
      subst told
      exact Layout.holds_iff_ne_none.mp isRoot'.holds absent
    · have there := wellFormed.isTree.parent_holds isChild
      have told := (parent_iff key parent).mpr ⟨_,
        result_children_of_readsBack wellFormed valid.admits records back there,
        (mem_kept_childList wellFormed records).mpr ⟨isChild, kept⟩⟩
      obtain ⟨⟨above, payload⟩, found⟩ := holds
      rw [result_parent wellFormed valid.admits records (Changes.shown_of_overlay found),
        Except.ok.injEq] at told
      obtain rfl := (Option.filter_eq_some_iff.mp told).1
      have isChild' : changes.overlay.IsChild key parent := ⟨payload, found⟩
      rcases back with isLazy | ⟨absent, -⟩
      · exact valid.leaf parent key isLazy isChild'
      · exact Layout.holds_iff_ne_none.mp (valid.isTree.parent_holds isChild') absent
  · exact fun sound => (records.shows allContent wellFormed sound).coherent

end Buffer

end VersionedTrees
