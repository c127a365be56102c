import VersionedTrees.Proofs.Buffer.Reads
import VersionedTrees.Proofs.Effect

/-!
# The steps of a buffer as changes

Each step that the edits of a buffer are made of does one thing to its changes: it places or prunes
in the overlay, or it hides or reveals a key. The statements here say so for the steps one by one;
which of the results are valid or sound is another matter.
-/

namespace VersionedTrees

variable {C : Type}

namespace Changes

variable {base : Store C} {changes : Changes C} {key parent other : Key} {standing : Standing C}

/-- Puts a node into the overlay. -/
def place (changes : Changes C) (key : Key) (standing : Standing C) : Changes C :=
  { changes with overlay := changes.overlay.place key standing }

/-- Takes a subtree out of the overlay. -/
noncomputable def prune (changes : Changes C) (top : Key) : Changes C :=
  { changes with overlay := changes.overlay.prune top }

/-- Lists keys as deleted. -/
def hide (changes : Changes C) (keys : Key → Prop) : Changes C :=
  { changes with deleted := fun key => changes.deleted key ∨ keys key }

@[simp] theorem overlay_place (changes : Changes C) (key : Key) (standing : Standing C) :
    (changes.place key standing).overlay = changes.overlay.place key standing := rfl

@[simp] theorem deleted_place (changes : Changes C) (key : Key) (standing : Standing C) :
    (changes.place key standing).deleted = changes.deleted := rfl

/-- What is placed in the overlay is shown with the payload that it stands for. -/
theorem shown_place (changes : Changes C) (key : Key) (standing : Standing C) :
    (changes.place key standing).shown base =
      (changes.shown base).place key ⟨standing.parent, base.lend standing.payload⟩ := by
  funext other
  by_cases same : key = other
  · subst same
    rw [Layout.place_self, shown_of_overlay (Layout.place_self _ _ _)]
  · rw [Layout.place_of_ne same, shown, shown, overlay_place, Layout.place_of_ne same]
    rfl

theorem isLazy_place_of_ne (different : key ≠ other) :
    (changes.place key standing).IsLazy other ↔ changes.IsLazy other := by
  simp only [IsLazy, overlay_place, Layout.place_of_ne different]

theorem readsBack_place_of_ne (different : key ≠ other) :
    (changes.place key standing).ReadsBack other ↔ changes.ReadsBack other := by
  rw [ReadsBack, ReadsBack, isLazy_place_of_ne different]
  simp only [overlay_place, deleted_place, Layout.place_of_ne different]

/-- A node that is no tree-reference has its own children. -/
theorem not_readsBack_place (notReference : standing.payload.isTreeReference = false) :
    ¬ (changes.place key standing).ReadsBack key := by
  rintro (⟨above, reference, found⟩ | ⟨absent, -⟩)
  · rw [overlay_place, Layout.place_self, Option.some.injEq] at found
    rw [found] at notReference
    cases notReference
  · rw [overlay_place, Layout.place_self] at absent
    cases absent

end Changes

namespace Buffer

variable {base : Store C} {changes : Changes C} {buffer : Buffer C} {key parent previous : Key}
  {payload old : Payload C} {above : Option Key}

/-- The overlay of a buffer is a tree. -/
theorem Records.isTree_overlay (records : buffer.Records base changes) :
    changes.overlay.IsTree := by
  rw [← records.overlay]
  exact records.wellFormed.isTree

theorem records_unchanged (base : Store C) (settings : ViewSettings) (trap : Option Trap) :
    (unchanged (.store base) settings trap).Records base .untouched where
  backing := rfl
  wellFormed := Store.wellFormed_empty _ _
  overlay := funext fun key => Store.layout_empty _ _ key
  deleted key := by
    change key ∈ (∅ : KeySet) ↔ False
    simp

/-- A reset leaves no changes, whatever there was before. -/
theorem records_reset (backing : buffer.backing = .store base) :
    (Buffer.reset.effect buffer).2.Records base .untouched where
  backing := backing
  wellFormed := (Store.becomes_clear _).wellFormed
  overlay := (Store.becomes_clear _).layout_eq
  deleted key := by
    change key ∈ (∅ : KeySet) ↔ False
    simp

theorem Records.withOverlay {next : Store C} {layout : Layout C}
    (records : buffer.Records base changes) (becomes : buffer.overlay.Becomes layout next) :
    ({ buffer with overlay := next } : Buffer C).Records base { changes with overlay := layout } :=
  ⟨records.backing, becomes.wellFormed, becomes.layout_eq, records.deleted⟩

theorem effect_insertOverlay (parent : Option Key) (placement : Placement) (payload : Payload C)
    (buffer : Buffer C) : (insertOverlay parent placement payload).effect buffer =
      ((buffer.overlay.insert parent placement payload).1,
        { buffer with overlay := (buffer.overlay.insert parent placement payload).2 }) := rfl

/-- What the overlay told and became is that of an insertion into it. -/
theorem insert_of_insertOverlay {parent : Option Key} {placement : Placement}
    {told : Except TreeError Key} {after : Buffer C}
    (ended : (insertOverlay parent placement payload).effect buffer = (told, after)) :
    buffer.overlay.insert parent placement payload = (told, after.overlay) := by
  rw [effect_insertOverlay, Prod.mk.injEq] at ended
  obtain ⟨rfl, rfl⟩ := ended
  rfl

theorem Records.insertOverlay_new (records : buffer.Records base changes)
    (holds : changes.overlay.Holds parent) (new : changes.overlay key = none)
    (payload : Payload C) :
    ∃ after, (insertOverlay (some parent) (.exactly key) payload).effect buffer = (.ok key, after) ∧
      after.Records base (changes.place key ⟨some parent, payload⟩) := by
  rw [← records.overlay] at holds new
  obtain ⟨next, ok, becomes⟩ := records.wellFormed.insert_new holds new payload
  refine ⟨_, by rw [effect_insertOverlay, ok], ?_⟩
  rw [Changes.place, ← records.overlay]
  exact records.withOverlay becomes

theorem Records.insertOverlay_moved (records : buffer.Records base changes)
    (isChild : changes.overlay.IsChild key previous) (holds : changes.overlay.Holds parent)
    (outside : ¬ changes.overlay.Within key parent) (payload : Payload C) :
    ∃ after, (insertOverlay (some parent) (.exactly key) payload).effect buffer = (.ok key, after) ∧
      after.Records base (changes.place key ⟨some parent, payload⟩) := by
  rw [← records.overlay] at isChild holds outside
  obtain ⟨next, ok, becomes⟩ := records.wellFormed.insert_moved isChild holds outside payload
  refine ⟨_, by rw [effect_insertOverlay, ok], ?_⟩
  rw [Changes.place, ← records.overlay]
  exact records.withOverlay becomes

/-- The root of the overlay is not moved. -/
theorem Records.effect_insertOverlay_rootBelow (records : buffer.Records base changes)
    (isRoot : changes.overlay.IsRoot key) (holds : changes.overlay.Holds parent)
    (payload : Payload C) :
    (insertOverlay (some parent) (.exactly key) payload).effect buffer =
      (.error (.shape (.rootBelow key parent)), buffer) := by
  rw [← records.overlay] at isRoot holds
  rw [effect_insertOverlay, Store.insert_exactly holds, Store.putBelow_of_root isRoot]

/-- No overlay node is moved below itself. -/
theorem Records.effect_insertOverlay_belowItself (records : buffer.Records base changes)
    (isChild : changes.overlay.IsChild key previous)
    (within : changes.overlay.Within key parent) (payload : Payload C) :
    (insertOverlay (some parent) (.exactly key) payload).effect buffer =
      (.error (.shape (.belowItself key parent)), buffer) := by
  rw [← records.overlay] at isChild within
  rw [effect_insertOverlay, Store.insert_exactly within.holds,
    records.wellFormed.putBelow_of_within isChild within]

/-- A root is put into an empty overlay. -/
theorem Records.insertOverlay_root (records : buffer.Records base changes)
    (empty : ∀ key, changes.overlay key = none) (placement : Placement) (payload : Payload C) :
    ∃ after, (insertOverlay none placement payload).effect buffer =
        (.ok placement.rootKey, after) ∧
      after.Records base (changes.place placement.rootKey ⟨none, payload⟩) := by
  rw [← records.overlay] at empty
  obtain ⟨next, ok, becomes⟩ := records.wellFormed.putRoot_of_empty
    (records.wellFormed.root_eq_none empty) placement.rootKey payload
  refine ⟨{ buffer with overlay := next }, ?_, ?_⟩
  · rw [effect_insertOverlay, Store.insert_root, ok]
  · rw [Changes.place, ← records.overlay]
    exact records.withOverlay becomes

/-- The root of the overlay takes a new payload. -/
theorem Records.insertOverlay_sameRoot {placement : Placement}
    (records : buffer.Records base changes)
    (isRoot : changes.overlay.IsRoot placement.rootKey) (payload : Payload C) :
    ∃ after, (insertOverlay none placement payload).effect buffer =
        (.ok placement.rootKey, after) ∧
      after.Records base (changes.place placement.rootKey ⟨none, payload⟩) := by
  rw [← records.overlay] at isRoot
  obtain ⟨next, ok, becomes⟩ := records.wellFormed.putRoot_of_root isRoot payload
  refine ⟨{ buffer with overlay := next }, ?_, ?_⟩
  · rw [effect_insertOverlay, Store.insert_root, ok]
  · rw [Changes.place, ← records.overlay]
    exact records.withOverlay becomes

/-- The overlay takes no second root. -/
theorem Records.effect_insertOverlay_secondRoot {placement : Placement} {root : Key}
    (records : buffer.Records base changes) (isRoot : changes.overlay.IsRoot root)
    (different : root ≠ placement.rootKey) (payload : Payload C) :
    (insertOverlay none placement payload).effect buffer =
      (.error (.shape (.secondRoot placement.rootKey root)), buffer) := by
  rw [← records.overlay] at isRoot
  rw [effect_insertOverlay, Store.insert_root,
    records.wellFormed.putRoot_of_other isRoot different]

theorem Records.updateOverlay (records : buffer.Records base changes)
    (found : changes.overlay key = some ⟨above, old⟩) (payload : Payload C) :
    ∃ after, (updateOverlay key payload).effect buffer = (.ok (), after) ∧
      after.Records base (changes.place key ⟨above, payload⟩) := by
  rw [← records.overlay] at found
  obtain ⟨next, ok, becomes⟩ := records.wellFormed.update found payload
  refine ⟨{ buffer with overlay := next }, ?_, ?_⟩
  · rw [Buffer.updateOverlay, onOverlay, Edit.effect_onPart, Edit.effect_attempt, ok]
  · rw [Changes.place, ← records.overlay]
    exact records.withOverlay becomes

theorem Records.deleteOverlay (records : buffer.Records base changes)
    (holds : changes.overlay.Holds key) :
    ∃ after, (deleteOverlay key).effect buffer = (.ok (), after) ∧
      after.Records base (changes.prune key) := by
  rw [← records.overlay] at holds
  obtain ⟨next, ok, becomes⟩ := records.wellFormed.delete holds
  refine ⟨{ buffer with overlay := next }, ?_, ?_⟩
  · rw [Buffer.deleteOverlay, onOverlay, Edit.effect_onPart, Edit.effect_attempt, ok]
  · rw [Changes.prune, ← records.overlay]
    exact records.withOverlay becomes

theorem Records.hide (records : buffer.Records base changes) (key : Key) :
    ∃ after, (hide key).effect buffer = (.ok (), after) ∧
      after.Records base (changes.hide (key = ·)) := by
  refine ⟨_, rfl, records.backing, records.wellFormed, records.overlay, fun other => ?_⟩
  change other ∈ buffer.deleted.insert key ↔ _
  rw [Store.mem_insert_iff, records.deleted, or_comm]
  rfl

/-- Whether an overlay node is lazy is told by its payload. -/
theorem Records.isLazy_iff (records : buffer.Records base changes)
    (admits : ∀ standing, changes.overlay key = some standing → base.Admits key standing.payload) :
    buffer.isLazy key = true ↔ changes.IsLazy key := by
  rw [Buffer.isLazy, Store.payload?_eq, records.overlay]
  have id : buffer.backingTree.id = base.id := congrArg Tree.id records.backingTree
  cases found : changes.overlay key with
  | none => simp [Changes.IsLazy, found]
  | some standing =>
      obtain ⟨above, payload⟩ := standing
      have admits := admits _ found
      cases payload with
      | content value => simp [isLazyPayload, Changes.IsLazy, found]
      | nodeReference reference => simp [isLazyPayload, Changes.IsLazy, found]
      | treeReference reference =>
          obtain ⟨rfl, -⟩ := admits
          simp [isLazyPayload, Changes.IsLazy, found, id]

theorem Records.isLazy_eq_false (records : buffer.Records base changes)
    (admits : ∀ standing, changes.overlay key = some standing → base.Admits key standing.payload)
    (notLazy : ¬ changes.IsLazy key) : buffer.isLazy key = false := by
  rw [← Bool.not_eq_true, records.isLazy_iff admits]
  exact notLazy

end Buffer

end VersionedTrees
