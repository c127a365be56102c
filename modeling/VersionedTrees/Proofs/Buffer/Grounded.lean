import VersionedTrees.Proofs.Buffer.CoherentRuns
import VersionedTrees.Proofs.Buffer.Invariants
import VersionedTrees.Proofs.Store.Runs

/-!
# Overlays that refer to nodes of the base

A tree-reference that a base holds into itself may have lost its target, and an edit may copy it into
the overlay of a buffer. If the base has no such reference (`Store.Closed`), then neither does the
overlay, whatever its edits are and however they end (`Buffer.grounded_of_anyRun`), and a node of the
overlay can always be taken out (`Buffer.Grounded.effect_removeOverlaySubtree`).
-/

namespace VersionedTrees

variable {C : Type}

namespace Store

variable {base store next : Store C} {key : Key} {payload : Payload C}

/-- A payload that is a tree-reference into a store points at one of its nodes. -/
def Grounds (base : Store C) : Payload C → Prop
  | .treeReference reference =>
    reference.tree = base.id → base.contains reference.key = true
  | .content _ | .nodeReference _ => True

/-- The tree-references of a store into itself point at its nodes. -/
def Closed (base : Store C) : Prop :=
  ∀ key payload, base.payload? key = some payload → base.Grounds payload

theorem AllContent.closed (allContent : base.AllContent) : base.Closed := by
  intro key payload found
  cases payload with
  | treeReference reference => exact nomatch allContent key _ found
  | content value => trivial
  | nodeReference reference => trivial

/-- The payloads that a store holds meet a condition. -/
def Holding (condition : Payload C → Prop) (store : Store C) : Prop :=
  store.WellFormed ∧ ∀ key standing, store.layout key = some standing → condition standing.payload

variable {condition : Payload C → Prop}

theorem holding_clear (store : Store C) : store.clear.Holding condition := by
  refine ⟨(becomes_clear store).wellFormed, fun key standing found => ?_⟩
  rw [(becomes_clear store).layout_eq] at found
  cases found

/-- What is placed has to meet the condition. -/
theorem Holding.place {standing : Standing C} (holding : store.Holding condition)
    (wellFormed : next.WellFormed) (layout_eq : next.layout = store.layout.place key standing)
    (meets : condition standing.payload) : next.Holding condition := by
  refine ⟨wellFormed, fun other found there => ?_⟩
  rw [layout_eq, Layout.place_eq] at there
  split at there
  · cases there
    exact meets
  · exact holding.2 other found there

theorem Holding.insert (holding : store.Holding condition) (parent : Option Key)
    (placement : Placement) (meets : condition payload) :
    (store.insert parent placement payload).2.Holding condition := by
  rcases inserted : store.insert parent placement payload with ⟨error | key, next⟩
  · have ends := store.ends_insert parent placement payload
    rw [inserted] at ends
    cases ends with
    | error supply => exact ⟨holding.1.withSupply supply, holding.2⟩
  · obtain ⟨wellFormed, layout_eq⟩ := holding.1.insert_eq_ok inserted
    exact holding.place wellFormed layout_eq meets

theorem Holding.update (holding : store.Holding condition) (meets : condition payload)
    (ok : store.update key payload = .ok next) : next.Holding condition := by
  obtain ⟨_, -, becomes⟩ := holding.1.becomes_of_update ok
  exact holding.place becomes.wellFormed becomes.layout_eq meets

theorem Holding.delete (holding : store.Holding condition) (ok : store.delete key = .ok next) :
    next.Holding condition := by
  have becomes := holding.1.becomes_of_delete ok
  refine ⟨becomes.wellFormed, fun other there found => ?_⟩
  rw [becomes.layout_eq] at found
  exact holding.2 other there (Layout.prune_eq_some.mp found).1

end Store

namespace Buffer

variable {base : Store C} {buffer after : Buffer C} {key : Key}

/-- The overlay of a buffer over a store is well-formed, and its tree-references into the store point
at nodes. -/
structure Grounded (base : Store C) (buffer : Buffer C) : Prop where
  backing : buffer.backing = .store base
  overlay : buffer.overlay.Holding base.Grounds

/-- All steps of a buffer over a closed store keep its overlay grounded. -/
theorem allSteps_grounded (wellFormed : base.WellFormed) (closed : base.Closed) :
    AllSteps base.tree base.Grounds (Grounded base) where
  backingTree grounded := by rw [backingTree, grounded.backing]; rfl
  insertOverlay parent placement _ meets buffer grounded :=
    ⟨grounded.backing, grounded.overlay.insert parent placement meets⟩
  updateOverlay key payload meets buffer grounded := by
    rw [updateOverlay, onOverlay, Edit.effect_onPart, Edit.effect_attempt]
    cases ok : buffer.overlay.update key payload with
    | error error => exact grounded
    | ok next => exact ⟨grounded.backing, grounded.overlay.update meets ok⟩
  deleteOverlay key buffer grounded := by
    rw [deleteOverlay, onOverlay, Edit.effect_onPart, Edit.effect_attempt]
    cases ok : buffer.overlay.delete key with
    | error error => exact grounded
    | ok next => exact ⟨grounded.backing, grounded.overlay.delete ok⟩
  root found _ :=
    Store.contains_iff_holds.mpr ((wellFormed.root _).mp (Except.ok.inj found)).holds
  child {key children child} read inside _ := by
    cases found : base.slot? key with
    | none =>
        rw [Store.result_children_of_absent found] at read
        cases read
    | some slot =>
        rw [Store.result_children_of_slot? found] at read
        cases read
        have isChild := (wellFormed.children key slot found child).mp (Std.TreeSet.mem_toList.mp inside)
        exact Store.contains_iff_holds.mpr isChild.holds
  payload {key payload} read := by
    obtain ⟨node, found, read⟩ := Read.result_bind_eq_ok read
    obtain ⟨there, present, read⟩ := Read.result_bind_eq_ok read
    cases read
    rw [Read.result_orFail_eq_ok_iff] at present
    subst present
    obtain ⟨payload, stored, rfl⟩ := Option.map_eq_some_iff.mp (Except.ok.inj found)
    exact closed key payload stored
  plain {payload} plain := by
    cases payload with
    | content value => trivial
    | nodeReference reference => cases plain
    | treeReference reference => cases plain
  reference {payload reference} points same contains := by
    cases payload with
    | content value => cases points
    | nodeReference other => trivial
    | treeReference other =>
        cases points
        exact fun _ => Except.ok.inj contains
  hide _ _ grounded := ⟨grounded.backing, grounded.overlay⟩
  reveal _ _ grounded := ⟨grounded.backing, grounded.overlay⟩

/-- A lazy node refers to its own key. -/
theorem isLazy_iff_payload? :
    buffer.isLazy key = true ↔ buffer.overlay.payload? key = some (buffer.lazyPayload key) := by
  rw [isLazy]
  cases buffer.overlay.payload? key with
  | none => simp
  | some payload =>
      cases payload with
      | content value => simp [isLazyPayload, lazyPayload]
      | nodeReference reference => simp [isLazyPayload, lazyPayload]
      | treeReference reference =>
          obtain ⟨tree, target⟩ := reference
          simp [isLazyPayload, lazyPayload]

/-- What a node of a grounded overlay stands for can be listed as deleted. -/
theorem Grounded.effect_hideNode (grounded : buffer.Grounded base) (wellFormed : base.WellFormed)
    (node : Key) : ∃ after, (hideNode node).effect buffer = (.ok (), after) := by
  have records : buffer.Records base buffer.changes :=
    ⟨grounded.backing, grounded.overlay.1, rfl, fun _ => Iff.rfl⟩
  have id : buffer.backingTree.id = base.id := congrArg Tree.id records.backingTree
  rw [hideNode, Edit.effect_current_bind]
  split
  · rename_i isLazy
    rw [isLazy_iff_payload?, Store.payload?_eq] at isLazy
    obtain ⟨standing, found, payload⟩ := Option.map_eq_some_iff.mp isLazy
    have grounds := grounded.overlay.2 node standing found
    rw [payload] at grounds
    obtain ⟨after, ok, -⟩ := records.hideBackingSubtree wellFormed
      (Store.contains_iff_holds.mp (grounds id))
    exact ⟨after, ok⟩
  · have contains : (buffer.backingTree.contains node).result = .ok (base.contains node) := by
      rw [records.backingTree]
      rfl
    rw [Edit.effect_liftM_bind contains, Edit.effect_when]
    split
    · exact ⟨_, rfl⟩
    · exact ⟨_, rfl⟩

theorem Grounded.effect_hideNodes (grounded : buffer.Grounded base) (wellFormed : base.WellFormed)
    (nodes : List Key) :
    ∃ deleted, (nodes.forM hideNode).effect buffer = (.ok ⟨⟩, { buffer with deleted }) := by
  suffices ok : ((nodes.forM hideNode).effect buffer).1 = .ok ⟨⟩ by
    obtain ⟨deleted, after_eq⟩ := exists_deleted_of_hideNodes nodes buffer
    exact ⟨deleted, Prod.ext ok after_eq⟩
  induction nodes generalizing buffer with
  | nil => rfl
  | cons node nodes inductionHypothesis =>
      obtain ⟨after, hidden⟩ := grounded.effect_hideNode wellFormed node
      have kept : after.Grounded base := by
        have hides : ∀ key, Edit.Keeps (Grounded base) (hide key) :=
          fun _ _ grounded => ⟨grounded.backing, grounded.overlay⟩
        have keeps := keeps_hideNode hides node buffer grounded
        rwa [hidden] at keeps
      rw [Edit.effect_forM_cons_of_ok hidden]
      exact inductionHypothesis kept

/-- The nodes of a grounded overlay can be taken out. -/
theorem Grounded.effect_removeOverlaySubtree (grounded : buffer.Grounded base)
    (wellFormed : base.WellFormed) (there : buffer.overlay.contains key = true) :
    ∃ after, (removeOverlaySubtree key).effect buffer = (.ok (), after) := by
  have holds := Store.contains_iff_holds.mp there
  have read := grounded.overlay.1.shows.result_keysFrom holds
  obtain ⟨deleted, hidden⟩ := grounded.effect_hideNodes wellFormed
    (preorder buffer.overlay.tree.childList buffer.overlay.tree.span key)
  obtain ⟨next, deletes, -⟩ := grounded.overlay.1.delete holds
  have removed : (deleteOverlay key).effect { buffer with deleted } =
      (.ok (), { buffer with overlay := next, deleted }) := by
    rw [deleteOverlay, onOverlay, Edit.effect_onPart, Edit.effect_attempt, deletes]
  refine ⟨{ buffer with overlay := next, deleted }, ?_⟩
  rw [removeOverlaySubtree, Edit.effect_current_bind, Edit.effect_liftM_bind read,
    Edit.effect_bind_of_ok hidden, removed]

/-! ## Runs -/

theorem grounded_unchanged (base : Store C) (settings : ViewSettings) (trap : Option Trap) :
    (unchanged (.store base) settings trap).Grounded base where
  backing := rfl
  overlay := ⟨Store.wellFormed_empty _ _, fun key _ found =>
    nomatch (Store.layout_empty base.id {} key).symm.trans found⟩

/-- Every edit of a buffer over a closed store leaves a grounded overlay, however it ends. -/
theorem Grounded.edit (grounded : buffer.Grounded base) (wellFormed : base.WellFormed)
    (closed : base.Closed) (edit : BufferEdit C) :
    (edit.edit.effect buffer).2.Grounded base := by
  have steps := allSteps_grounded wellFormed closed
  have reset : (Buffer.reset.effect buffer).2.Grounded base :=
    ⟨grounded.backing, buffer.overlay.holding_clear⟩
  cases edit with
  | insert parent placement payload =>
      refine Edit.Keeps.map (steps.keeps_insert fun admitted existed => ?_) buffer grounded
      exact (steps.insertOverlay parent placement admitted).bind fun key =>
        steps.keeps_afterInsert key existed payload.isTreeReference
  | update key payload =>
      refine Edit.Keeps.map (steps.keeps_update fun admitted => ?_) buffer grounded
      exact (steps.updateOverlay key admitted).bind fun _ =>
        Edit.keeps_when (steps.keeps_restore key)
  | delete key =>
      refine Edit.Keeps.map ?_ buffer grounded
      exact (steps.keeps_reach key).bind fun _ => steps.keeps_removeOverlaySubtree key
  | expandAll key => exact Edit.Keeps.map (steps.keeps_expandAll key) buffer grounded
  | replace delta =>
      rw [BufferEdit.edit, Edit.effect_map]
      exact steps.holds_of_replace reset delta
  | applyDelta delta =>
      rw [BufferEdit.edit, Edit.effect_map]
      rcases effect_applyDelta delta buffer with ⟨-, replaced⟩ | ⟨-, error, refused⟩
      · rw [replaced]
        exact steps.holds_of_replace reset delta.tree.tree
      · rw [refused]
        exact grounded
  | reset => exact reset

end Buffer

/-- A buffer over a store after any edits, whether they succeeded or failed. -/
inductive AnyRun (base : Store C) : Buffer C → Prop where
  | fresh (settings : ViewSettings) (trap : Option Trap) :
      AnyRun base (Buffer.unchanged (.store base) settings trap)
  | seeded (settings : ViewSettings) (trap : Option Trap) :
      AnyRun base (Buffer.seed.effect (Buffer.unchanged (.store base) settings trap)).2
  | step {buffer : Buffer C} (run : AnyRun base buffer) (edit : BufferEdit C) :
      AnyRun base (edit.edit.effect buffer).2

namespace Buffer

variable {base : Store C} {buffer : Buffer C}

/-- However a buffer over a closed store has been edited, its overlay is grounded. -/
theorem grounded_of_anyRun (wellFormed : base.WellFormed) (closed : base.Closed)
    (run : AnyRun base buffer) : buffer.Grounded base := by
  induction run with
  | fresh settings trap => exact grounded_unchanged base settings trap
  | seeded settings trap =>
      exact (allSteps_grounded wellFormed closed).keeps_seed _
        (grounded_unchanged base settings trap)
  | step _ edit inductionHypothesis => exact inductionHypothesis.edit wellFormed closed edit

end Buffer

end VersionedTrees
