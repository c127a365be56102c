import VersionedTrees.Proofs.Buffer.Insert

/-!
# Letting a node stand for its base subtree again

When a tree-reference is stored, what stood below the node in the overlay is removed and each key of
the base subtree is settled: it is deleted if it stands elsewhere in the overlay, and shown otherwise
(`Buffer.Records.restore`). The result is always valid. It is sound only if the base subtree can be
read around what was taken out of it (`Changes.Restorable`): overlay nodes with content that come from
below the node have to account for all of their base children, and the base parent of the node itself
may not be read from the base.
-/

namespace VersionedTrees

variable {C : Type}

namespace Changes

variable {base : Store C} {changes : Changes C} {key top child parent : Key} {standing : Standing C}

/-- Changes with a lazy node that is about to be settled. They are valid but for the overlay children of
that node. -/
structure Relazing (base : Store C) (top : Key) (changes : Changes C) : Prop where
  isTree : changes.overlay.IsTree
  admits : ∀ key standing, changes.overlay key = some standing → base.Admits key standing.payload
  isLazy : changes.IsLazy top
  leaf : ∀ key child, top ≠ key → changes.IsLazy key → ¬ changes.overlay.IsChild child key

/-- Changes with a lazy node that is about to be settled. They are sound but for the overlay children
of that node, and for the node itself among its base siblings. -/
structure Restoring (base : Store C) (top : Key) (changes : Changes C) : Prop
    extends Relazing base top changes where
  covered : ∀ key parent, changes.overlay key = none → ¬ changes.deleted key →
    base.layout.IsChild key parent → changes.ReadsBack parent
  rootCovered : ∀ key, changes.overlay key = none → ¬ changes.deleted key →
    base.layout.IsRoot key → ∀ other, changes.overlay other = none
  exclusive : ∀ key parent, top ≠ parent → changes.overlay.Holds key → ¬ changes.deleted key →
    base.layout.IsChild key parent → ¬ changes.ReadsBack parent

/-- A tree-reference that is put into valid changes, below a node that is not lazy, can be settled. -/
theorem Valid.relazing {above : Option Key} {reference : Reference} (valid : changes.Valid base)
    (admits : base.Admits key (.treeReference reference))
    (below : ∀ parent, above = some parent → ¬ changes.IsLazy parent)
    (isTree : (changes.place key ⟨above, .treeReference reference⟩).overlay.IsTree) :
    (changes.place key ⟨above, .treeReference reference⟩).Relazing base key where
  isTree := isTree
  admits _ _ there := valid.admits_place admits there
  isLazy := ⟨above, reference, Layout.place_self _ _ _⟩
  leaf _ _ different := valid.leaf_place below different

/-- A tree-reference that enters sound changes can be settled. -/
theorem Enters.restoring {above : Option Key} {reference : Reference} (sound : changes.Sound base)
    (enters : changes.Enters base key ⟨above, .treeReference reference⟩)
    (isTree : (changes.place key ⟨above, .treeReference reference⟩).overlay.IsTree) :
    (changes.place key ⟨above, .treeReference reference⟩).Restoring base key where
  toRelazing := sound.relazing enters.admits enters.below isTree
  covered other parent absent kept isChild := by
    have back := sound.covered other parent (absent_of_place absent).2 kept isChild
    by_cases same : key = parent
    · subst same
      exact .inl ⟨above, reference, Layout.place_self _ _ _⟩
    · exact (readsBack_place_of_ne same).mpr back
  rootCovered _ absent kept isRoot := (enters.rootCovered_place sound absent kept isRoot).elim
  exclusive other parent different holds kept isChild back :=
    enters.exclusive_place sound holds kept isChild ((readsBack_place_of_ne different).mp back)

/-- To remove a child of the node leaves changes in which the node can be settled. -/
theorem Relazing.remove (relazing : changes.Relazing base top)
    (isChild : changes.overlay.IsChild child top) :
    (changes.remove base child).Relazing base top where
  isTree := relazing.isTree.prune child
  admits key standing found := relazing.admits key standing (Layout.prune_eq_some.mp found).1
  isLazy := isLazy_remove_iff.mpr ⟨relazing.isLazy, isChild.not_within relazing.isTree⟩
  leaf key below different isLazy isChild :=
    relazing.leaf key below different (isLazy_remove_iff.mp isLazy).1
      (Layout.isChild_prune_iff.mp isChild).1

/-- To remove a child of the node leaves changes that can be settled. -/
theorem Restoring.remove (restoring : changes.Restoring base top) (isTree : base.layout.IsTree)
    (isChild : changes.overlay.IsChild child top) :
    (changes.remove base child).Restoring base top where
  toRelazing := restoring.toRelazing.remove isChild
  covered _ _ := covered_remove isTree restoring.covered
  rootCovered _ := rootCovered_remove restoring.rootCovered
  exclusive key parent different holds kept isChild back :=
    restoring.exclusive key parent different (Layout.prune_holds_iff.mp holds).1
      (not_deleted_remove_iff.mp kept).1 isChild
      (readsBack_of_remove back (isTree.parent_holds isChild))

/-- Takes several overlay subtrees out, one after the other. -/
noncomputable def removeAll (base : Store C) (changes : Changes C) (tops : List Key) : Changes C :=
  tops.foldl (fun changes top => changes.remove base top) changes

open Classical in
/-- Takes out what stands strictly below an overlay node, with what it stands for. -/
noncomputable def strip (base : Store C) (changes : Changes C) (top : Key) : Changes C where
  overlay key :=
    if changes.overlay.Within top key ∧ top ≠ key then none else changes.overlay key
  deleted key := changes.deleted key ∨
    ∃ node, changes.overlay.Within top node ∧ top ≠ node ∧ changes.StandsFor base node key

theorem overlay_strip_of_below (within : changes.overlay.Within top key) (different : top ≠ key) :
    (changes.strip base top).overlay key = none :=
  if_pos ⟨within, different⟩

theorem overlay_strip_of_not_below (outside : ¬ (changes.overlay.Within top key ∧ top ≠ key)) :
    (changes.strip base top).overlay key = changes.overlay key :=
  if_neg outside

theorem overlay_removeAll {tops : List Key} :
    (changes.removeAll base tops).overlay = changes.overlay.pruneAll tops := by
  induction tops generalizing changes with
  | nil => rfl
  | cons first tops inductionHypothesis => exact inductionHypothesis

theorem deleted_removeAll {tops : List Key} : (changes.removeAll base tops).deleted key ↔
    changes.deleted key ∨ ∃ top ∈ tops, ∃ node, changes.overlay.Within top node ∧
      changes.StandsFor base node key := by
  induction tops generalizing changes with
  | nil => simp [removeAll]
  | cons first tops inductionHypothesis =>
      -- a node that was taken out with an earlier subtree is counted there
      have later : ∀ top node, (changes.remove base first).overlay.Within top node ∧
          (changes.remove base first).StandsFor base node key ↔
            (changes.overlay.Within top node ∧ changes.StandsFor base node key) ∧
              ¬ changes.overlay.Within first node := by
        intro top node
        rw [overlay_remove, Layout.within_prune_iff, StandsFor, StandsFor, isLazy_remove_iff]
        tauto
      change ((changes.remove base first).removeAll base tops).deleted key ↔ _
      rw [inductionHypothesis]
      simp only [later, List.exists_mem_cons_iff]
      change (changes.deleted key ∨ _) ∨ _ ↔ _
      rw [or_assoc]
      refine or_congr_right ⟨?_, ?_⟩
      · rintro (here | ⟨top, inside, node, there, -⟩)
        · exact .inl here
        · exact .inr ⟨top, inside, node, there⟩
      · rintro (here | ⟨top, inside, node, there⟩)
        · exact .inl here
        · by_cases within : changes.overlay.Within first node
          · exact .inl ⟨node, within, there.2⟩
          · exact .inr ⟨top, inside, node, there, within⟩

/-- To remove the overlay children of a node is to take out what stands strictly below it. -/
theorem removeAll_eq_strip {children : List Key} (isTree : changes.overlay.IsTree)
    (mem_iff : ∀ child, child ∈ children ↔ changes.overlay.IsChild child top) :
    changes.removeAll base children = changes.strip base top := by
  have below : ∀ key, (∃ child ∈ children, changes.overlay.Within child key) ↔
      changes.overlay.Within top key ∧ top ≠ key := by
    intro key
    constructor
    · rintro ⟨child, inside, within⟩
      have isChild := (mem_iff child).mp inside
      refine ⟨(isChild.within (isTree.within_self (isTree.parent_holds isChild))).trans within, ?_⟩
      rintro rfl
      exact isChild.not_within isTree within
    · rintro ⟨within, different⟩
      obtain ⟨child, isChild, within⟩ := within.exists_child isTree different
      exact ⟨child, (mem_iff child).mpr isChild, within⟩
  refine Changes.ext (funext fun key => Option.ext fun standing => ?_) (funext fun key => ?_)
  · rw [overlay_removeAll, Layout.pruneAll_eq_some]
    by_cases inside : changes.overlay.Within top key ∧ top ≠ key
    · rw [overlay_strip_of_below inside.1 inside.2]
      obtain ⟨child, among, within⟩ := (below key).mpr inside
      exact iff_of_false (fun both => both.2 child among within) nofun
    · rw [overlay_strip_of_not_below inside]
      exact and_iff_left fun child among within => inside ((below key).mp ⟨child, among, within⟩)
  · refine propext (deleted_removeAll.trans (or_congr_right ?_))
    constructor
    · rintro ⟨child, among, node, within, standsFor⟩
      obtain ⟨within, different⟩ := (below node).mp ⟨child, among, within⟩
      exact ⟨node, within, different, standsFor⟩
    · rintro ⟨node, within, different, standsFor⟩
      obtain ⟨child, among, within⟩ := (below node).mpr ⟨within, different⟩
      exact ⟨child, among, node, within, standsFor⟩

/-- Settles which keys of the base subtree of a lazy node are deleted. -/
def settle (base : Store C) (changes : Changes C) (top : Key) : Changes C :=
  { changes with
    deleted := fun key =>
      base.layout.Within top key ∧ top ≠ key ∧ changes.overlay.Holds key ∨
        ¬ base.layout.Within top key ∧ changes.deleted key }

@[simp] theorem overlay_settle (changes : Changes C) (top : Key) :
    (changes.settle base top).overlay = changes.overlay := rfl

theorem deleted_settle_of_within (within : base.layout.Within top key) :
    (changes.settle base top).deleted key ↔ top ≠ key ∧ changes.overlay.Holds key := by
  simp [settle, within]

theorem deleted_settle_of_not_within (outside : ¬ base.layout.Within top key) :
    (changes.settle base top).deleted key ↔ changes.deleted key := by
  simp [settle, outside]

/-- What is taken out from below a node and settled is deleted only if it was before, or if it stands in the
base. -/
theorem deleted_settle_strip (deleted : ((changes.strip base top).settle base top).deleted key) :
    changes.deleted key ∨ base.layout.Holds key := by
  rcases deleted with ⟨within, -, -⟩ | ⟨-, gone | ⟨node, -, -, standsFor⟩⟩
  · exact .inr within.holds
  · exact .inl gone
  · exact .inr standsFor.holds

/-- The base subtree of a lazy node can be read: overlay nodes with content that come from it account
for all of their base children, and the base parent of the node does not have it as a child as
well. -/
structure Restorable (base : Store C) (changes : Changes C) (top : Key) : Prop where
  accounted : ∀ key, base.layout.Within top key → changes.overlay.Holds key →
    ¬ changes.IsLazy key → changes.Accounted base key
  apart : ∀ parent, base.layout.IsChild top parent → ¬ changes.ReadsBack parent

/-- Settled changes are valid. -/
theorem Relazing.valid_settle (relazing : changes.Relazing base top)
    (alone : ∀ child, ¬ changes.overlay.IsChild child top) :
    (changes.settle base top).Valid base where
  isTree := relazing.isTree
  admits := relazing.admits
  leaf key child isLazy := by
    by_cases same : top = key
    · subst same
      exact alone child
    · exact relazing.leaf key child same isLazy

section Settled

variable (restoring : changes.Restoring base top) (isTree : base.layout.IsTree)

include restoring isTree

/-- What is kept and not in the overlay after the settling has a parent that is read from the base, if
overlay nodes with content account for their base children. -/
theorem Restoring.covered_settle
    (accounted : ∀ key, base.layout.Within top key → changes.overlay.Holds key →
      ¬ changes.IsLazy key → (changes.settle base top).Accounted base key)
    (absent : changes.overlay key = none) (kept : ¬ (changes.settle base top).deleted key)
    (isChild : base.layout.IsChild key parent) : (changes.settle base top).ReadsBack parent := by
  have notTop : top ≠ key := by
    rintro rfl
    exact Layout.not_holds_iff.mpr absent restoring.isLazy.holds
  by_cases within : base.layout.Within top key
  · have above := ((Layout.within_iff_of_isChild isChild isTree).mp within).resolve_left notTop
    by_cases isLazy : changes.IsLazy parent
    · exact .inl isLazy
    · -- a node with content above the key would have left it behind
      have absentAbove : changes.overlay parent = none := by
        rw [← Layout.not_holds_iff]
        intro holds
        exact (accounted parent above holds isLazy key isChild).elim
          (Layout.not_holds_iff.mpr absent) kept
      refine .inr ⟨absentAbove, fun deleted => ?_⟩
      exact Layout.not_holds_iff.mpr absentAbove ((deleted_settle_of_within above).mp deleted).2
  · rw [deleted_settle_of_not_within within] at kept
    rcases restoring.covered key parent absent kept isChild with isLazy | ⟨absentAbove, keptAbove⟩
    · exact .inl isLazy
    · refine .inr ⟨absentAbove, ?_⟩
      rwa [deleted_settle_of_not_within fun above => within (isChild.within above)]

theorem Restoring.exclusive_settle
    (apart : ∀ parent, base.layout.IsChild top parent →
      ¬ (changes.settle base top).ReadsBack parent)
    (holds : changes.overlay.Holds key) (kept : ¬ (changes.settle base top).deleted key)
    (isChild : base.layout.IsChild key parent) : ¬ (changes.settle base top).ReadsBack parent := by
  by_cases within : base.layout.Within top key
  · have same : top = key := by
      by_contra different
      exact kept ((deleted_settle_of_within within).mpr ⟨different, holds⟩)
    subst same
    exact apart parent isChild
  · rw [deleted_settle_of_not_within within] at kept
    have outside : ¬ base.layout.Within top parent := fun above => within (isChild.within above)
    have different : top ≠ parent := by
      rintro rfl
      exact outside (isTree.within_self (isTree.parent_holds isChild))
    intro back
    refine restoring.exclusive key parent different holds kept isChild ?_
    rwa [ReadsBack, deleted_settle_of_not_within outside] at back

/-- Settled changes are sound exactly when the node could be restored. -/
theorem Restoring.sound_settle_iff (alone : ∀ child, ¬ changes.overlay.IsChild child top) :
    (changes.settle base top).Sound base ↔ (changes.settle base top).Restorable base top := by
  obtain ⟨above, reference, found⟩ := restoring.isLazy
  have holds : base.layout.Holds top := by
    obtain ⟨rfl, holds⟩ := restoring.admits top _ found
    exact holds
  constructor
  · intro sound
    refine ⟨fun key _ holds notLazy => sound.accounted ?_, fun parent isChild => ?_⟩
    · rintro (isLazy | ⟨absent, -⟩)
      · exact notLazy isLazy
      · exact Layout.not_holds_iff.mpr absent holds
    · refine sound.exclusive top parent restoring.isLazy.holds ?_ isChild
      rw [deleted_settle_of_within (isTree.within_self holds)]
      exact fun both => both.1 rfl
  · intro restorable
    refine ⟨restoring.valid_settle alone, fun key parent absent kept isChild => ?_,
      fun key absent kept isRoot => ?_, fun key parent holds kept isChild => ?_⟩
    · exact restoring.covered_settle isTree restorable.accounted absent kept isChild
    · refine restoring.rootCovered key absent (fun deleted => ?_) isRoot
      refine kept ((deleted_settle_of_not_within fun within => ?_).mpr deleted)
      obtain rfl := isRoot.within_iff.mp within
      exact Layout.not_holds_iff.mpr absent restoring.isLazy.holds
    · exact restoring.exclusive_settle isTree restorable.apart holds kept isChild

end Settled

end Changes

namespace Buffer

variable {base : Store C} {changes : Changes C} {buffer : Buffer C} {key top : Key}

/-- The overlay children of a lazy node are removed one after the other. -/
theorem Records.removeChildren (records : buffer.Records base changes)
    (wellFormed : base.WellFormed) (relazing : changes.Relazing base top) {children : List Key}
    (nodup : children.Nodup)
    (mem_iff : ∀ child, child ∈ children ↔ changes.overlay.IsChild child top) :
    ∃ after, (children.forM Buffer.removeOverlaySubtree).effect buffer = (.ok ⟨⟩, after) ∧
      after.Records base (changes.removeAll base children) ∧
      (changes.removeAll base children).Relazing base top ∧
      (changes.Restoring base top → (changes.removeAll base children).Restoring base top) ∧
      ∀ child, ¬ (changes.removeAll base children).overlay.IsChild child top := by
  induction children generalizing buffer changes with
  | nil =>
      refine ⟨buffer, rfl, records, relazing, id, fun child isChild => ?_⟩
      exact absurd ((mem_iff child).mpr isChild) List.not_mem_nil
  | cons first children inductionHypothesis =>
      obtain ⟨notLater, nodup⟩ := List.nodup_cons.mp nodup
      have isChild := (mem_iff first).mp List.mem_cons_self
      obtain ⟨middle, removed, records'⟩ :=
        records.removeOverlaySubtree wellFormed relazing.admits isChild.holds
      have remaining : ∀ child, child ∈ children ↔
          (changes.remove base first).overlay.IsChild child top := by
        intro child
        rw [Changes.overlay_remove, Layout.isChild_prune_iff, ← mem_iff child, List.mem_cons]
        -- of the siblings, only the removed one is in its subtree
        have within_iff : child = first ∨ child ∈ children →
            (changes.overlay.Within first child ↔ first = child) := by
          intro inside
          rw [Layout.within_iff_of_isChild ((mem_iff child).mp (List.mem_cons.mpr inside))
            relazing.isTree]
          exact or_iff_left (isChild.not_within relazing.isTree)
        constructor
        · intro inside
          refine ⟨.inr inside, ?_⟩
          rw [within_iff (.inr inside)]
          rintro rfl
          exact notLater inside
        · rintro ⟨inside, outside⟩
          rw [within_iff inside] at outside
          exact inside.resolve_left fun same => outside same.symm
      obtain ⟨after, rest, recorded, relazing', restores, alone⟩ :=
        inductionHypothesis records' (relazing.remove isChild) nodup remaining
      exact ⟨after, by rw [Edit.effect_forM_cons_of_ok removed, rest], recorded, relazing',
        fun restoring => restores (restoring.remove wellFormed.isTree isChild), alone⟩

/-- One key below the restored node is settled. -/
theorem Records.settleKey (records : buffer.Records base changes) (top key : Key) :
    ∃ after, (settle top key).effect buffer = (.ok (), after) ∧
      after.Records base { changes with
        deleted := fun other =>
          if other = key then top ≠ key ∧ changes.overlay.Holds key else changes.deleted other } := by
  rw [settle, Edit.effect_current_bind]
  by_cases hidden : key ≠ top ∧ buffer.overlay.contains key = true
  · rw [if_pos hidden]
    refine ⟨_, rfl, records.backing, records.wellFormed, records.overlay, fun other => ?_⟩
    change other ∈ buffer.deleted.insert key ↔ _
    rw [Store.mem_insert_iff, records.deleted]
    by_cases same : other = key
    · subst same
      simp only [true_or, if_true, true_iff]
      exact ⟨hidden.1.symm, records.contains_overlay.mp hidden.2⟩
    · simp only [if_neg same]
      exact or_iff_right fun equal => same equal.symm
  · rw [if_neg hidden]
    refine ⟨_, rfl, records.backing, records.wellFormed, records.overlay, fun other => ?_⟩
    change other ∈ buffer.deleted.erase key ↔ _
    rw [Store.mem_erase_iff, records.deleted]
    by_cases same : other = key
    · subst same
      simp only [ne_eq, not_true_eq_false, false_and, if_true, false_iff]
      rintro ⟨different, holds⟩
      exact hidden ⟨fun same => different same.symm, records.contains_overlay.mpr holds⟩
    · simp only [if_neg same]
      exact and_iff_right fun equal => same equal.symm

/-- Keys below the restored node are settled one after the other. -/
theorem Records.settleKeys (records : buffer.Records base changes) (top : Key) (keys : List Key) :
    ∃ after, (keys.forM (settle top)).effect buffer = (.ok ⟨⟩, after) ∧
      after.Records base { changes with
        deleted := fun key =>
          key ∈ keys ∧ top ≠ key ∧ changes.overlay.Holds key ∨
            key ∉ keys ∧ changes.deleted key } := by
  induction keys generalizing buffer changes with
  | nil => exact ⟨buffer, rfl, records.congr rfl fun key => by simp⟩
  | cons first keys inductionHypothesis =>
      obtain ⟨middle, settled, records'⟩ := records.settleKey top first
      obtain ⟨after, ok, records''⟩ := inductionHypothesis records'
      refine ⟨after, by rw [Edit.effect_forM_cons_of_ok settled, ok], records''.congr rfl ?_⟩
      intro key
      by_cases later : key ∈ keys
      · simp [later]
      · by_cases same : key = first
        · subst same
          simp [later]
        · simp [later, same]

/-- A node is restored if the changes are valid but for what is below it. -/
theorem Records.relaze (records : buffer.Records base changes) (wellFormed : base.WellFormed)
    (relazing : changes.Relazing base top) :
    ∃ after, (Buffer.restore top).effect buffer = (.ok (), after) ∧
      after.Records base ((changes.strip base top).settle base top) ∧
      (changes.strip base top).Relazing base top ∧
      (changes.Restoring base top → (changes.strip base top).Restoring base top) ∧
      ∀ child, ¬ (changes.strip base top).overlay.IsChild child top := by
  have shows := records.wellFormed.shows
  rw [records.overlay] at shows
  have children := shows.result_children relazing.isLazy.holds
  obtain ⟨middle, removed, records', relazing', restores, alone⟩ :=
    records.removeChildren wellFormed relazing
      (nodup_of_ordered (shows.listed.ordered top)) (shows.listed.mem_iff top)
  rw [Changes.removeAll_eq_strip relazing.isTree (shows.listed.mem_iff top)]
    at records' relazing' restores alone
  obtain ⟨above, reference, found⟩ := relazing.isLazy
  have holds : base.layout.Holds top := by
    obtain ⟨rfl, holds⟩ := relazing.admits top _ found
    exact holds
  obtain ⟨after, settled, records''⟩ :=
    records'.settleKeys top (preorder base.tree.childList base.tree.levels top)
  refine ⟨after, ?_, records''.congr rfl fun key => ?_, relazing', restores, alone⟩
  · rw [Buffer.restore, Edit.effect_current_bind]
    refine (Edit.effect_liftM_bind children).trans ((Edit.effect_bind_of_ok removed).trans ?_)
    rw [records.backingTree, wellFormed.visitFrom_eq _ holds]
    exact settled
  · have mem_iff : key ∈ preorder base.tree.childList base.tree.levels top ↔
        base.layout.Within top key :=
      wellFormed.listed.mem_preorder_iff wellFormed.isTree holds
        (wellFormed.shows.exhausts holds (Nat.le_succ _))
    simp only [mem_iff]
    rfl

/-- To restore a node removes what is below it in the overlay and settles its base subtree. -/
theorem Records.restore (records : buffer.Records base changes) (wellFormed : base.WellFormed)
    (restoring : changes.Restoring base top) :
    ∃ after, (restore top).effect buffer = (.ok (), after) ∧
      after.Records base ((changes.strip base top).settle base top) ∧
      (changes.strip base top).Restoring base top ∧
      ∀ child, ¬ (changes.strip base top).overlay.IsChild child top := by
  obtain ⟨after, restored, records', -, restores, alone⟩ :=
    records.relaze wellFormed restoring.toRelazing
  exact ⟨after, restored, records', restores restoring, alone⟩

end Buffer

end VersionedTrees
