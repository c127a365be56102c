import VersionedTrees.Buffer.Basic
import VersionedTrees.Proofs.Layout.Changes
import VersionedTrees.Proofs.Store.Edits

/-!
# The changes that a buffer holds

Seen through layouts, a change buffer is an overlay and a set of deleted keys over a base. `Changes`
is that pair, and `Changes.shown` is the layout that it stands for: overlay nodes as they are, with
the payloads that references lend, and base nodes under all other keys that are not deleted.

`Changes.Valid` says that the overlay is a tree whose references point into the base, lazy nodes at
their own key. `Changes.Sound` says moreover that what is read from the base hangs together: a base
node that is shown without being in the overlay has a parent that is read from the base as well, and
an overlay node that has not been taken out of the base is no child of such a node. Then what is
shown is a tree (`Sound.isTree_shown`).
-/

namespace VersionedTrees

variable {C : Type}

theorem Payload.exists_of_isTreeReference {payload : Payload C}
    (kind : payload.isTreeReference = true) : ∃ reference, payload = .treeReference reference := by
  cases payload with
  | treeReference reference => exact ⟨reference, rfl⟩
  | content value => cases kind
  | nodeReference reference => cases kind

/-- What a payload stands for, with the nodes of a store as targets. -/
def Store.lend (base : Store C) (payload : Payload C) : Payload C :=
  match payload.reference? with
  | none => payload
  | some reference => (base.payload? reference.key).getD payload

/-- A reference into a store lends the content of its target. -/
theorem Store.lend_of_reference {base : Store C} {payload : Payload C} {reference : Reference}
    {standing : Standing C} (points : payload.reference? = some reference)
    (found : base.layout reference.key = some standing) : base.lend payload = standing.payload := by
  rw [Store.lend, points]
  simp only [Store.payload?_eq, found, Option.map_some, Option.getD_some]

theorem Store.lend_treeReference {base : Store C} {id : TreeId} {key : Key} {standing : Standing C}
    (found : base.layout key = some standing) :
    base.lend (.treeReference ⟨id, key⟩) = standing.payload :=
  have points : (Payload.treeReference ⟨id, key⟩ : Payload C).reference? = some ⟨id, key⟩ := rfl
  Store.lend_of_reference points found

/-- Content stands for itself. -/
theorem Store.lend_of_not_isReference (base : Store C) {payload : Payload C}
    (notReference : payload.isReference = false) : base.lend payload = payload := by
  rw [Store.lend, Option.isSome_eq_false_iff.mp notReference |> Option.isNone_iff_eq_none.mp]

/-- A payload may stand under a key of an overlay. -/
def Store.Admits (base : Store C) (key : Key) : Payload C → Prop
  | .content _ => True
  | .nodeReference reference => reference.tree = base.id ∧ base.layout.Holds reference.key
  | .treeReference reference => reference = ⟨base.id, key⟩ ∧ base.layout.Holds key

/-- A payload is content or points at a node of a store. -/
def Store.Resolves (base : Store C) (payload : Payload C) : Prop :=
  ∀ reference, payload.reference? = some reference →
    reference.tree = base.id ∧ base.layout.Holds reference.key

/-- What may stand under a key resolves. -/
theorem Store.Admits.resolves {base : Store C} {key : Key} {payload : Payload C}
    (admits : base.Admits key payload) : base.Resolves payload := by
  rintro reference same
  cases payload with
  | content value => cases same
  | nodeReference target =>
      cases same
      exact admits
  | treeReference target =>
      cases same
      obtain ⟨rfl, holds⟩ := admits
      exact ⟨rfl, holds⟩

/-- A payload that resolves may stand under a key, if a tree-reference points at that key. -/
theorem Store.Resolves.admits {base : Store C} {key : Key} {payload : Payload C}
    (resolves : base.Resolves payload)
    (stored : ∀ reference, payload = .treeReference reference → reference.key = key) :
    base.Admits key payload := by
  cases payload with
  | content value => trivial
  | nodeReference reference => exact resolves reference rfl
  | treeReference reference =>
      obtain ⟨sameTree, holds⟩ := resolves reference rfl
      have sameKey := stored reference rfl
      change reference = ⟨base.id, key⟩ ∧ base.layout.Holds key
      rw [← sameKey, ← sameTree]
      exact ⟨rfl, holds⟩

/-- What is lent from a store with content alone is content. -/
theorem Store.AllContent.not_isReference_lend {base : Store C} {payload : Payload C}
    (allContent : base.AllContent) (resolves : base.Resolves payload) :
    (base.lend payload).isReference = false := by
  have target : ∀ reference, payload.reference? = some reference →
      (base.lend payload).isReference = false := by
    intro reference points
    obtain ⟨-, standing, there⟩ := resolves reference points
    rw [Store.lend_of_reference points there]
    exact allContent.not_isReference there
  cases payload with
  | content value => rfl
  | nodeReference reference => exact target reference rfl
  | treeReference reference => exact target reference rfl

/-- The overlay and the deleted keys of a change buffer. -/
@[ext] structure Changes (C : Type) where
  overlay : Layout C
  deleted : Key → Prop

namespace Changes

variable {base : Store C} {changes : Changes C} {key parent child : Key} {standing : Standing C}

/-- A key stands for its base subtree. -/
def IsLazy (changes : Changes C) (key : Key) : Prop :=
  ∃ parent reference, changes.overlay key = some ⟨parent, .treeReference reference⟩

/-- The children of a key are those of the base. -/
def ReadsBack (changes : Changes C) (key : Key) : Prop :=
  changes.IsLazy key ∨ changes.overlay key = none ∧ ¬ changes.deleted key

open Classical in
/-- What changes stand for over a base. -/
noncomputable def shown (base : Store C) (changes : Changes C) : Layout C := fun key =>
  match changes.overlay key with
  | some standing => some ⟨standing.parent, base.lend standing.payload⟩
  | none => if changes.deleted key then none else base.layout key

/-- The references of the overlay point into the base, lazy nodes at their own key. -/
def Admitted (base : Store C) (changes : Changes C) : Prop :=
  ∀ key standing, changes.overlay key = some standing → base.Admits key standing.payload

/-- The overlay is a tree whose references point into the base, and what is below a lazy node is in
the base alone. -/
structure Valid (base : Store C) (changes : Changes C) : Prop where
  isTree : changes.overlay.IsTree
  admits : ∀ key standing, changes.overlay key = some standing → base.Admits key standing.payload
  leaf : ∀ key child, changes.IsLazy key → ¬ changes.overlay.IsChild child key

/-- What is shown of the base hangs together with what is shown of the overlay. -/
structure Sound (base : Store C) (changes : Changes C) : Prop extends Valid base changes where
  covered : ∀ key parent, changes.overlay key = none → ¬ changes.deleted key →
    base.layout.IsChild key parent → changes.ReadsBack parent
  rootCovered : ∀ key, changes.overlay key = none → ¬ changes.deleted key →
    base.layout.IsRoot key → ∀ other, changes.overlay other = none
  exclusive : ∀ key parent, changes.overlay.Holds key → ¬ changes.deleted key →
    base.layout.IsChild key parent → ¬ changes.ReadsBack parent

/-! ## What is shown under a key -/

theorem shown_of_overlay (found : changes.overlay key = some standing) :
    changes.shown base key = some ⟨standing.parent, base.lend standing.payload⟩ := by
  rw [shown, found]

theorem shown_of_deleted (absent : changes.overlay key = none) (deleted : changes.deleted key) :
    changes.shown base key = none := by
  simp [shown, absent, deleted]

theorem shown_of_kept (absent : changes.overlay key = none) (kept : ¬ changes.deleted key) :
    changes.shown base key = base.layout key := by
  simp [shown, absent, kept]

theorem holds_shown_of_overlay (holds : changes.overlay.Holds key) :
    (changes.shown base).Holds key :=
  let ⟨_, found⟩ := holds
  ⟨_, shown_of_overlay found⟩

/-- Nothing is shown under a key that neither the overlay has nor the base without the deleted. -/
theorem shown_eq_none_iff : changes.shown base key = none ↔
    changes.overlay key = none ∧ (changes.deleted key ∨ base.layout key = none) := by
  cases found : changes.overlay key with
  | some standing => simp [shown_of_overlay found]
  | none =>
      by_cases deleted : changes.deleted key
      · simp [shown_of_deleted found deleted, deleted]
      · simp [shown_of_kept found deleted, deleted]

/-- An overlay node is shown below its overlay parent. -/
theorem isChild_shown_of_overlay (holds : changes.overlay.Holds key) :
    (changes.shown base).IsChild key parent ↔ changes.overlay.IsChild key parent := by
  obtain ⟨standing, found⟩ := holds
  rw [Layout.isChild_iff, Layout.isChild_iff, shown_of_overlay found, found]
  rfl

theorem isRoot_shown_of_overlay (holds : changes.overlay.Holds key) :
    (changes.shown base).IsRoot key ↔ changes.overlay.IsRoot key := by
  obtain ⟨standing, found⟩ := holds
  rw [Layout.isRoot_iff, Layout.isRoot_iff, shown_of_overlay found, found]
  rfl

theorem isChild_shown_of_kept (absent : changes.overlay key = none) (kept : ¬ changes.deleted key) :
    (changes.shown base).IsChild key parent ↔ base.layout.IsChild key parent := by
  rw [Layout.isChild_iff, Layout.isChild_iff, shown_of_kept absent kept]

theorem isRoot_shown_of_kept (absent : changes.overlay key = none) (kept : ¬ changes.deleted key) :
    (changes.shown base).IsRoot key ↔ base.layout.IsRoot key := by
  rw [Layout.isRoot_iff, Layout.isRoot_iff, shown_of_kept absent kept]

/-- What is shown is in the overlay or in the base, and not deleted in the latter case. -/
theorem holds_shown_cases (holds : (changes.shown base).Holds key) : changes.overlay.Holds key ∨
    changes.overlay key = none ∧ ¬ changes.deleted key ∧ base.layout.Holds key := by
  cases found : changes.overlay key with
  | some standing => exact .inl ⟨_, found⟩
  | none =>
      by_cases deleted : changes.deleted key
      · exact absurd (shown_of_deleted found deleted) (Layout.holds_iff_ne_none.mp holds)
      · refine .inr ⟨rfl, deleted, ?_⟩
        obtain ⟨standing, same⟩ := holds
        exact ⟨standing, (shown_of_kept found deleted).symm.trans same⟩

theorem IsLazy.holds (isLazy : changes.IsLazy key) : changes.overlay.Holds key :=
  let ⟨_, _, found⟩ := isLazy
  ⟨_, found⟩

/-- A node of the base is read from the base unless it is an overlay node with content or deleted. -/
theorem ReadsBack.holds_shown (readsBack : changes.ReadsBack key) (holds : base.layout.Holds key) :
    (changes.shown base).Holds key := by
  rcases readsBack with isLazy | ⟨absent, kept⟩
  · exact holds_shown_of_overlay isLazy.holds
  · obtain ⟨standing, found⟩ := holds
    exact ⟨standing, (shown_of_kept absent kept).trans found⟩

/-! ## What is shown is a tree -/

theorem line_shown_of_overlay {line : List Key} (isLine : changes.overlay.Line key line) :
    (changes.shown base).Line key line := by
  induction isLine with
  | root isRoot => exact .root ((isRoot_shown_of_overlay isRoot.holds).mpr isRoot)
  | child isChild _ inductionHypothesis =>
      exact .child ((isChild_shown_of_overlay isChild.holds).mpr isChild) inductionHypothesis

/-- Among overlay keys the subtrees that are shown are those of the overlay. -/
theorem Valid.within_shown_iff (valid : changes.Valid base) (holds : changes.overlay.Holds key)
    {top : Key} : (changes.shown base).Within top key ↔ changes.overlay.Within top key := by
  obtain ⟨line, isLine⟩ := valid.isTree.rooted key holds
  constructor
  · rintro ⟨line', isLine', inside⟩
    rw [isLine'.unique (line_shown_of_overlay isLine)] at inside
    exact isLine.within inside
  · rintro ⟨line', isLine', inside⟩
    exact ⟨line', line_shown_of_overlay isLine', inside⟩

/-- From a base node that is shown the way leads up through the base, to a lazy node or to the
root. -/
theorem Sound.exists_line_shown (sound : changes.Sound base) (isTree : base.layout.IsTree)
    (holds : base.layout.Holds key) (absent : changes.overlay key = none)
    (kept : ¬ changes.deleted key) : ∃ line, (changes.shown base).Line key line := by
  revert absent kept
  refine isTree.induction key holds ?_ ?_
  · intro key isRoot absent kept
    exact ⟨_, .root ((isRoot_shown_of_kept absent kept).mpr isRoot)⟩
  · intro key parent isChild _ inductionHypothesis absent kept
    have shown := (isChild_shown_of_kept absent kept).mpr isChild
    rcases sound.covered key parent absent kept isChild with isLazy | ⟨absent, kept⟩
    · obtain ⟨line, isLine⟩ := sound.isTree.rooted parent isLazy.holds
      exact ⟨_, .child shown (line_shown_of_overlay isLine)⟩
    · obtain ⟨line, isLine⟩ := inductionHypothesis absent kept
      exact ⟨_, .child shown isLine⟩

/-- What sound changes show is a tree. -/
theorem Sound.isTree_shown (sound : changes.Sound base) (isTree : base.layout.IsTree) :
    (changes.shown base).IsTree where
  rooted key holds := by
    rcases holds_shown_cases holds with ⟨standing, found⟩ | ⟨absent, kept, holds⟩
    · obtain ⟨line, isLine⟩ := sound.isTree.rooted key ⟨standing, found⟩
      exact ⟨line, line_shown_of_overlay isLine⟩
    · exact sound.exists_line_shown isTree holds absent kept
  single left right first second := by
    -- a base root is shown over an empty overlay only
    have apart : ∀ left right, changes.overlay.Holds left → changes.overlay right = none →
        ¬ changes.deleted right → ¬ (changes.shown base).IsRoot right := by
      intro left right holds absent kept isRoot
      have isRoot' := (isRoot_shown_of_kept absent kept).mp isRoot
      exact Layout.not_holds_iff.mpr (sound.rootCovered right absent kept isRoot' left) holds
    rcases holds_shown_cases first.holds with inside | ⟨absent, kept, -⟩ <;>
      rcases holds_shown_cases second.holds with inside' | ⟨absent', kept', -⟩
    · exact sound.isTree.single left right ((isRoot_shown_of_overlay inside).mp first)
        ((isRoot_shown_of_overlay inside').mp second)
    · exact absurd second (apart left right inside absent' kept')
    · exact absurd first (apart right left inside' absent kept)
    · exact isTree.single left right ((isRoot_shown_of_kept absent kept).mp first)
        ((isRoot_shown_of_kept absent' kept').mp second)

/-- Below an overlay node with content stand its overlay children, and below all others the base
children that are not deleted. -/
theorem Sound.isChild_shown_iff (sound : changes.Sound base) :
    (changes.shown base).IsChild child parent ↔
      changes.overlay.IsChild child parent ∨
        changes.ReadsBack parent ∧ base.layout.IsChild child parent ∧ ¬ changes.deleted child := by
  constructor
  · intro isChild
    rcases holds_shown_cases isChild.holds with inside | ⟨absent, kept, -⟩
    · exact .inl ((isChild_shown_of_overlay inside).mp isChild)
    · have isChild' := (isChild_shown_of_kept absent kept).mp isChild
      exact .inr ⟨sound.covered child parent absent kept isChild', isChild', kept⟩
  · rintro (isChild | ⟨readsBack, isChild, kept⟩)
    · exact (isChild_shown_of_overlay isChild.holds).mpr isChild
    · have absent : changes.overlay child = none := by
        rw [← Layout.not_holds_iff]
        exact fun holds => sound.exclusive child parent holds kept isChild readsBack
      exact (isChild_shown_of_kept absent kept).mpr isChild

/-! ## No changes -/

/-- No changes at all. -/
def untouched : Changes C :=
  ⟨fun _ => none, fun _ => False⟩

theorem shown_untouched (base : Store C) : untouched.shown base = base.layout :=
  funext fun _ => shown_of_kept rfl not_false

theorem sound_untouched : (untouched : Changes C).Sound base where
  isTree := ⟨fun _ ⟨_, found⟩ => (nomatch found), fun _ _ ⟨_, found⟩ => (nomatch found)⟩
  admits _ _ found := nomatch found
  leaf _ _ _ := fun ⟨_, found⟩ => (nomatch found)
  covered _ _ _ _ _ := .inr ⟨rfl, not_false⟩
  rootCovered _ _ _ _ _ := rfl
  exclusive _ _ := fun ⟨_, found⟩ => (nomatch found)

end Changes

end VersionedTrees
