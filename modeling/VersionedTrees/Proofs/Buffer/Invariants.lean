import VersionedTrees.Buffer.Edit
import VersionedTrees.Buffer.Replace
import VersionedTrees.Proofs.Buffer.Insert
import VersionedTrees.Proofs.Walk

/-!
# What all edits of a buffer keep

The edits of a buffer are made of few steps: three edits of the overlay, and a key that is hidden or
revealed. A property of buffers that each of these keeps is kept by every edit, however it ends. Some
properties are kept by the overlay steps alone (`OverlaySteps`), and the edits that only bring nodes
into the overlay keep those; the others hide and reveal as well (`AllSteps`).

A property may depend on what the overlay is given. The payloads that an edit hands to the overlay come
from the backing tree, stand for one of its nodes, or have been checked to point into it; a property
may name a condition that those payloads meet (`admits`).
-/

namespace VersionedTrees

variable {C : Type}

namespace Buffer

/-- The steps of the overlay keep a property of the buffers over a backing tree, as long as they are
given payloads that meet a condition, and the payloads that edits give them do meet it. -/
structure OverlaySteps (backing : Tree C) (admits : Payload C → Prop) (holds : Buffer C → Prop) :
    Prop where
  backingTree : ∀ {buffer}, holds buffer → buffer.backingTree = backing
  insertOverlay : ∀ parent placement {payload}, admits payload →
    Edit.Keeps holds (insertOverlay parent placement payload)
  updateOverlay : ∀ key {payload}, admits payload → Edit.Keeps holds (updateOverlay key payload)
  deleteOverlay : ∀ key, Edit.Keeps holds (deleteOverlay key)
  /-- The root may be lazy. -/
  root : ∀ {root}, backing.rootKey.result = .ok (some root) →
    admits (.treeReference ⟨backing.id, root⟩)
  /-- A child may be lazy. -/
  child : ∀ {key children child}, (backing.children key).result = .ok children →
    child ∈ children → admits (.treeReference ⟨backing.id, child⟩)
  /-- The payload of a backing node may be copied. -/
  payload : ∀ {key payload}, (backing.payload key).result = .ok payload → admits payload
  /-- What is no reference is admitted. -/
  plain : ∀ {payload}, payload.reference? = none → admits payload
  /-- A reference to a backing node is admitted. -/
  reference : ∀ {payload reference}, payload.reference? = some reference →
    reference.tree = backing.id → (backing.contains reference.key).result = .ok true →
    admits payload

/-- All steps that edits are made of keep a property. -/
structure AllSteps (backing : Tree C) (admits : Payload C → Prop) (holds : Buffer C → Prop) : Prop
    extends OverlaySteps backing admits holds where
  hide : ∀ key, Edit.Keeps holds (hide key)
  reveal : ∀ key, Edit.Keeps holds (reveal key)

variable {backing : Tree C} {admits : Payload C → Prop} {holds : Buffer C → Prop}
  {buffer after : Buffer C} {payload : Payload C} {key : Key}

/-! ## Bringing nodes into the overlay -/

/-- A property is kept when the root becomes lazy and when a lazy node is expanded, and with that by all
that brings shown nodes into the overlay. -/
structure Unfolds (holds : Buffer C → Prop) : Prop where
  seed : Edit.Keeps holds (seed : Edit (Buffer C) Unit)
  expandLazy : ∀ key, Edit.Keeps holds (expandLazy key : Edit (Buffer C) Unit)

namespace Unfolds

variable (unfolds : Unfolds holds)

include unfolds

theorem keeps_expandAnchor (wanted : Key) (anchor : Option Key) :
    Edit.Keeps holds (expandAnchor wanted anchor : Edit (Buffer C) Unit) := by
  cases anchor with
  | some anchor =>
      exact Edit.keeps_bind_current fun _ _ =>
        (Edit.keeps_liftM _).bind fun _ => unfolds.expandLazy anchor
  | none =>
      exact Edit.keeps_bind_current fun _ _ => (Edit.keeps_liftM _).bind fun _ => unfolds.seed

theorem keeps_reach (key : Key) : Edit.Keeps holds (reach key : Edit (Buffer C) Unit) := by
  refine Edit.keeps_bind_current fun buffer _ => ?_
  split
  · exact Edit.keeps_pure _
  · refine (Edit.keeps_liftM _).bind fun _ => (Edit.keeps_liftM _).bind fun _ => ?_
    refine (Edit.keeps_liftM _).bind fun _ => (Edit.keeps_liftM _).bind fun parent => ?_
    refine (Edit.keeps_liftM _).bind fun climbed => ?_
    refine (unfolds.keeps_expandAnchor key climbed.1).bind fun _ => ?_
    refine (Edit.keeps_forM (fun above => unfolds.expandLazy above) _).bind fun _ => ?_
    exact Edit.keeps_bind_current fun _ _ => Edit.keeps_liftM _

theorem keeps_prepareParent (parent : Option Key) :
    Edit.Keeps holds (prepareParent parent : Edit (Buffer C) Unit) := by
  cases parent with
  | some parent => exact (unfolds.keeps_reach parent).bind fun _ => unfolds.expandLazy parent
  | none => exact unfolds.seed

theorem keeps_prepareMoved (explicit : Option Key) :
    Edit.Keeps holds (prepareMoved explicit : Edit (Buffer C) Bool) := by
  cases explicit with
  | none => exact Edit.keeps_pure _
  | some key =>
      have reachBacked : Edit.Keeps holds (reachBacked key : Edit (Buffer C) Unit) :=
        Edit.keeps_bind_current fun _ _ => (Edit.keeps_liftM _).bind fun _ =>
          Edit.keeps_when (unfolds.keeps_reach key)
      refine Edit.keeps_bind_current fun _ _ => (Edit.keeps_when reachBacked).bind fun _ => ?_
      exact Edit.keeps_bind_current fun _ _ => Edit.keeps_pure _

/-- To materialize a subtree keeps what the copying of targets keeps as well. -/
theorem keeps_expandAll (copies : ∀ key, Edit.Keeps holds (copyTarget key : Edit (Buffer C) Unit))
    (key : Key) : Edit.Keeps holds (expandAll key : Edit (Buffer C) Unit) := by
  refine (unfolds.keeps_reach key).bind fun _ => Edit.keeps_bind_current fun _ _ => ?_
  refine Edit.keeps_depthFirst (fun key => ?_) _ key
  refine (unfolds.expandLazy key).bind fun _ => (copies key).bind fun _ => ?_
  exact Edit.keeps_bind_current fun _ _ => (Edit.keeps_liftM _).bind fun _ => Edit.keeps_pure _

end Unfolds

/-- A key that was brought into the overlay is in it. -/
theorem contains_of_reach (reached : (reach key).effect buffer = (.ok (), after)) :
    after.overlay.contains key = true := by
  rw [reach, Edit.effect_current_bind] at reached
  split at reached
  · rename_i there
    cases reached
    exact there
  · obtain ⟨-, -, reached⟩ := Edit.effect_liftM_bind_eq_ok reached
    obtain ⟨contains, -, reached⟩ := Edit.effect_liftM_bind_eq_ok reached
    obtain ⟨-, -, reached⟩ := Edit.effect_liftM_bind_eq_ok reached
    obtain ⟨parent, -, reached⟩ := Edit.effect_liftM_bind_eq_ok reached
    obtain ⟨climbed, -, reached⟩ := Edit.effect_liftM_bind_eq_ok reached
    obtain ⟨⟨⟩, expanded, -, reached⟩ := Edit.effect_bind_eq_ok reached
    obtain ⟨⟨⟩, last, -, reached⟩ := Edit.effect_bind_eq_ok reached
    rw [Edit.effect_current_bind, Edit.effect_liftM, Prod.mk.injEq] at reached
    obtain ⟨told, rfl⟩ := reached
    exact Read.result_require_eq_ok told

/-- To take a new node out again keeps what a deletion from the overlay keeps. -/
theorem keeps_rejectTakenKey (deletes : Edit.Keeps holds (deleteOverlay key : Edit (Buffer C) Unit))
    (isTreeReference : Bool) :
    Edit.Keeps holds (rejectTakenKey key isTreeReference : Edit (Buffer C) Unit) := by
  refine Edit.keeps_bind_current fun _ _ => (Edit.keeps_liftM _).bind fun _ => Edit.keeps_when ?_
  exact deletes.bind fun _ => Edit.keeps_liftM _

namespace OverlaySteps

variable (steps : OverlaySteps backing admits holds)

include steps

/-- A payload that has been checked is admitted. -/
theorem admits_of_checkPayload (held : holds buffer)
    (checked : (buffer.checkPayload payload).result = .ok ()) : admits payload := by
  rw [checkPayload, steps.backingTree held] at checked
  cases points : payload.reference? with
  | none => exact steps.plain points
  | some reference =>
      rw [points] at checked
      obtain ⟨⟨⟩, same, checked⟩ := Read.result_bind_eq_ok checked
      obtain ⟨there, contains, checked⟩ := Read.result_bind_eq_ok checked
      rw [Read.result_require_eq_ok checked] at contains
      exact steps.reference points (of_decide_eq_true (Read.result_require_eq_ok same)) contains

theorem keeps_addLazy (parent : Option Key) (admitted : admits (.treeReference ⟨backing.id, key⟩)) :
    Edit.Keeps holds (addLazy parent key) := by
  refine Edit.keeps_bind_current fun buffer held => ?_
  rw [lazyPayload, steps.backingTree held]
  exact (steps.insertOverlay parent _ admitted).bind fun _ => Edit.keeps_pure _

theorem keeps_seed : Edit.Keeps holds (seed : Edit (Buffer C) Unit) := by
  refine Edit.keeps_bind_current fun buffer held => ?_
  split
  · rw [steps.backingTree held]
    refine Edit.keeps_liftM_bind fun root found => ?_
    cases root with
    | none => exact Edit.keeps_pure _
    | some root => exact Edit.keeps_when (steps.keeps_addLazy none (steps.root found))
  · exact Edit.keeps_pure _

theorem keeps_addLazyChild (parent : Key) (admitted : admits (.treeReference ⟨backing.id, key⟩)) :
    Edit.Keeps holds (addLazyChild parent key) :=
  Edit.keeps_bind_current fun _ _ => Edit.keeps_when (steps.keeps_addLazy (some parent) admitted)

theorem keeps_expandLazy (key : Key) : Edit.Keeps holds (expandLazy key : Edit (Buffer C) Unit) := by
  refine Edit.keeps_bind_current fun buffer held => ?_
  split
  · rw [steps.backingTree held]
    refine Edit.keeps_liftM_bind fun payload read => ?_
    refine (steps.updateOverlay key (steps.payload read)).bind fun _ => ?_
    refine Edit.keeps_liftM_bind fun children read => ?_
    refine Edit.Keeps.bind (Edit.keeps_forM_of_mem fun child inside => ?_) fun _ =>
      Edit.keeps_liftM _
    exact steps.keeps_addLazyChild key (steps.child read inside)
  · exact Edit.keeps_pure _

/-- The overlay steps keep what brings nodes into the overlay. -/
theorem unfolds : Unfolds holds :=
  ⟨steps.keeps_seed, steps.keeps_expandLazy⟩

theorem keeps_reach (key : Key) : Edit.Keeps holds (reach key : Edit (Buffer C) Unit) :=
  steps.unfolds.keeps_reach key

/-- An insertion keeps what the placing of its node keeps. -/
theorem keeps_insert {parent : Option Key} {placement : Placement}
    (places : admits payload → ∀ existed,
      Edit.Keeps holds (placeNode parent placement payload existed)) :
    Edit.Keeps holds (insert parent placement payload) := by
  refine Edit.keeps_bind_current fun buffer held => Edit.keeps_liftM_bind fun ⟨⟩ checked => ?_
  refine (Edit.keeps_liftM _).bind fun _ => (steps.unfolds.keeps_prepareParent parent).bind fun _ => ?_
  refine (steps.unfolds.keeps_prepareMoved _).bind fun existed => ?_
  refine (Edit.keeps_when (Edit.keeps_forM (fun key => steps.keeps_expandLazy key) _)).bind
    fun _ => ?_
  exact places (steps.admits_of_checkPayload held checked) existed

/-- An update keeps what the storing of its payload keeps. -/
theorem keeps_update (stores : admits payload → Edit.Keeps holds (do
      Buffer.updateOverlay key payload
      Edit.when payload.isTreeReference (restore key))) :
    Edit.Keeps holds (update key payload) := by
  refine Edit.keeps_bind_current fun buffer held => Edit.keeps_liftM_bind fun ⟨⟩ checked => ?_
  refine (Edit.keeps_liftM _).bind fun _ => (steps.keeps_reach key).bind fun _ => ?_
  refine (Edit.keeps_when (steps.keeps_expandLazy key)).bind fun _ => ?_
  exact stores (steps.admits_of_checkPayload held checked)

theorem keeps_expandAll (key : Key) : Edit.Keeps holds (expandAll key : Edit (Buffer C) Unit) := by
  refine steps.unfolds.keeps_expandAll (fun key => Edit.keeps_bind_current fun buffer held => ?_) key
  split
  · rw [steps.backingTree held]
    exact Edit.keeps_liftM_bind fun payload read => steps.updateOverlay key (steps.payload read)
  · exact Edit.keeps_pure _

end OverlaySteps

/-! ## Taking nodes out of the overlay -/

/-- A walk over a tree keeps what each visit keeps. -/
theorem keeps_visitFrom {visit : Key → Edit (Buffer C) Unit}
    (keeps : ∀ key, Edit.Keeps holds (visit key)) (tree : Tree C) (key : Key) :
    Edit.Keeps holds (tree.visitFrom visit key) := by
  refine Edit.keeps_depthFirst (fun key => ?_) _ key
  exact (Edit.keeps_liftM _).bind fun _ => (keeps key).bind fun _ => Edit.keeps_pure _

section Hiding

variable (hides : ∀ key, Edit.Keeps holds (hide key))

include hides

theorem keeps_hideBackingSubtree (key : Key) :
    Edit.Keeps holds (hideBackingSubtree key : Edit (Buffer C) Unit) :=
  Edit.keeps_bind_current fun buffer _ => keeps_visitFrom hides buffer.backingTree key

/-- To list what a node stands for keeps what the listing of a key keeps. -/
theorem keeps_hideNode (key : Key) : Edit.Keeps holds (hideNode key : Edit (Buffer C) Unit) := by
  refine Edit.keeps_bind_current fun buffer _ => ?_
  split
  · exact keeps_hideBackingSubtree hides key
  · exact (Edit.keeps_liftM _).bind fun _ => Edit.keeps_when (hides key)

end Hiding

/-- To remove an overlay subtree keeps what the listing of its nodes and the deletion keep. -/
theorem keeps_removeOverlaySubtree (hides : ∀ node, Edit.Keeps holds (hideNode node : Edit (Buffer C) Unit))
    (deletes : Edit.Keeps holds (deleteOverlay key : Edit (Buffer C) Unit)) :
    Edit.Keeps holds (removeOverlaySubtree key : Edit (Buffer C) Unit) :=
  Edit.keeps_bind_current fun _ _ => (Edit.keeps_liftM _).bind fun keys =>
    (Edit.keeps_forM hides keys).bind fun _ => deletes

/-- To list what nodes stand for changes nothing but the list. -/
theorem exists_deleted_of_hideNodes (nodes : List Key) (buffer : Buffer C) :
    ∃ deleted, ((nodes.forM hideNode).effect buffer).2 = { buffer with deleted } := by
  let Listed (after : Buffer C) : Prop := ∃ deleted, after = { buffer with deleted }
  have hides : ∀ key, Edit.Keeps Listed (hide key) := by
    rintro key _ ⟨deleted, rfl⟩
    exact ⟨_, rfl⟩
  exact Edit.keeps_forM (fun node => keeps_hideNode hides node) nodes buffer ⟨buffer.deleted, rfl⟩

namespace AllSteps

variable (steps : AllSteps backing admits holds)

include steps

theorem keeps_removeOverlaySubtree (key : Key) :
    Edit.Keeps holds (removeOverlaySubtree key : Edit (Buffer C) Unit) :=
  Buffer.keeps_removeOverlaySubtree (keeps_hideNode steps.hide) (steps.deleteOverlay key)

theorem keeps_restore (key : Key) : Edit.Keeps holds (restore key : Edit (Buffer C) Unit) := by
  have settles : ∀ other, Edit.Keeps holds (settle key other : Edit (Buffer C) Unit) := by
    intro other
    refine Edit.keeps_bind_current fun buffer _ => ?_
    split
    · exact steps.hide other
    · exact steps.reveal other
  refine Edit.keeps_bind_current fun buffer _ => (Edit.keeps_liftM _).bind fun children => ?_
  refine (Edit.keeps_forM steps.keeps_removeOverlaySubtree children).bind fun _ => ?_
  exact keeps_visitFrom settles buffer.backingTree key

/-- What is left of an insertion once the overlay has the node. -/
theorem keeps_afterInsert (key : Key) (existed isTreeReference : Bool) :
    Edit.Keeps holds (do
      Edit.when (!existed) (rejectTakenKey key isTreeReference)
      Edit.when isTreeReference (restore key)
      return key : Edit (Buffer C) Key) :=
  (Edit.keeps_when (keeps_rejectTakenKey (steps.deleteOverlay key) isTreeReference)).bind fun _ =>
    (Edit.keeps_when (steps.keeps_restore key)).bind fun _ => Edit.keeps_pure _

end AllSteps

end Buffer

/-! ## Replacing the state -/

namespace Replacement

variable {backing : Tree C} {admits : Payload C → Prop} {holds : Buffer C → Prop}
  {payload : Payload C} {key : Key} {parent : Option Key} {reference : Reference}

/-- A property of the buffer that is being replaced. -/
def Over (holds : Buffer C → Prop) (replacement : Replacement C) : Prop :=
  holds replacement.buffer

/-- An edit of the buffer keeps what it keeps of buffers. -/
theorem keeps_edit {α : Type} {edit : Edit (Buffer C) α} (keeps : Edit.Keeps holds edit) :
    Edit.Keeps (Over holds) (Replacement.edit edit) :=
  fun replacement held => keeps replacement.buffer held

/-- The counts have no part in a property of the buffer. -/
theorem keeps_countLazy : Edit.Keeps (Over holds) (countLazy : Edit (Replacement C) Unit) :=
  fun _ held => held

theorem keeps_countCopied : Edit.Keeps (Over holds) (countCopied : Edit (Replacement C) Unit) :=
  fun _ held => held

variable (steps : Buffer.OverlaySteps backing admits holds)

include steps

theorem keeps_add (parent : Option Key) (admitted : admits payload) :
    Edit.Keeps (Over holds) (add key parent payload) :=
  (keeps_edit (steps.insertOverlay parent (.exactly key) admitted)).bind fun _ =>
    Edit.keeps_pure _

theorem keeps_addLazyChild {child : Key} (parent : Key)
    (admitted : admits (.treeReference ⟨backing.id, child⟩)) :
    Edit.Keeps (Over holds) (addLazyChild parent child : Edit (Replacement C) Unit) := by
  refine Edit.Keeps.bind (Edit.keeps_bind_current fun _ _ => Edit.keeps_liftM _) fun _ => ?_
  exact (keeps_edit (steps.keeps_addLazy (some parent) admitted)).bind fun _ => keeps_countLazy

theorem keeps_addCopy (key : Key) (parent : Option Key) (reference : Reference) :
    Edit.Keeps (Over holds) (addCopy key parent reference : Edit (Replacement C) Unit) := by
  refine (Edit.keeps_liftM _).bind fun _ => Edit.keeps_bind_current fun replacement held => ?_
  rw [steps.backingTree held]
  refine Edit.keeps_liftM_bind fun payload read => ?_
  refine (keeps_add steps parent (steps.payload read)).bind fun _ => keeps_countCopied.bind
    fun _ => ?_
  exact Edit.keeps_liftM_bind fun children read => Edit.keeps_forM_of_mem fun child inside =>
    keeps_addLazyChild steps key (steps.child read inside)

theorem keeps_addTreeReference (delta : Tree C) (key : Key) (parent : Option Key)
    (admitted : admits (.treeReference reference)) :
    Edit.Keeps (Over holds) (addTreeReference delta key parent reference) := by
  refine (Edit.keeps_liftM _).bind fun _ => (Edit.keeps_liftM _).bind fun _ => ?_
  by_cases own : reference.key = key
  · rw [if_pos own]
    exact (Edit.keeps_liftM _).bind fun _ => (keeps_add steps parent admitted).bind fun _ =>
      keeps_countLazy
  · rw [if_neg own]
    exact keeps_addCopy steps key parent reference

theorem keeps_step (delta : Tree C) (item : Key × Option Key) :
    Edit.Keeps (Over holds) (step delta item) := by
  obtain ⟨key, parent⟩ := item
  refine (Edit.keeps_liftM _).bind fun payload => ?_
  refine Edit.Keeps.bind (Edit.keeps_bind_current fun _ _ => Edit.keeps_liftM _) fun _ => ?_
  refine Edit.keeps_bind_current fun replacement held => Edit.keeps_liftM_bind fun ⟨⟩ checked => ?_
  have admitted := steps.admits_of_checkPayload held checked
  have adds : Edit.Keeps (Over holds) (do
      Edit.when (!payload.isReference) countCopied
      add key parent payload
      return (← delta.children key).map (·, some key)) :=
    (Edit.keeps_when keeps_countCopied).bind fun _ => (keeps_add steps parent admitted).bind
      fun _ => (Edit.keeps_liftM _).bind fun _ => Edit.keeps_pure _
  cases payload with
  | treeReference reference =>
      exact (keeps_addTreeReference steps delta key parent admitted).bind fun _ =>
        Edit.keeps_pure _
  | content value => exact adds
  | nodeReference reference => exact adds

end Replacement

namespace Buffer

variable {backing : Tree C} {admits : Payload C → Prop} {holds : Buffer C → Prop}

theorem OverlaySteps.keeps_takeOver (steps : OverlaySteps backing admits holds) (delta : Tree C)
    (root : Key) : Edit.Keeps holds (takeOver delta root) := by
  intro buffer held
  exact Edit.keeps_depthFirst (Replacement.keeps_step steps delta) (delta.levels + 1) (root, none)
    { buffer } held

namespace AllSteps

variable (steps : AllSteps backing admits holds)

include steps

theorem keeps_hideUncovered : Edit.Keeps holds (hideUncovered : Edit (Buffer C) Unit) := by
  have visits : ∀ key, Edit.Keeps holds (hideUncoveredNode key : Edit (Buffer C) (List Key)) := by
    intro key
    refine Edit.keeps_bind_current fun buffer _ => ?_
    split
    · exact Edit.keeps_pure _
    · exact (Edit.keeps_when (steps.hide key)).bind fun _ => (Edit.keeps_liftM _).bind fun _ =>
        Edit.keeps_pure _
  refine Edit.keeps_bind_current fun buffer _ => (Edit.keeps_liftM _).bind fun root => ?_
  cases root with
  | none => exact Edit.keeps_pure _
  | some root => exact Edit.keeps_depthFirst visits _ root

/-- What holds once a buffer has been reset holds however its state is replaced. -/
theorem holds_of_replace {buffer : Buffer C} (held : holds (reset.effect buffer).2)
    (delta : Tree C) : holds ((replace delta).effect buffer).2 := by
  have resets : (reset : Edit (Buffer C) Unit).effect buffer = (.ok (), (reset.effect buffer).2) :=
    rfl
  rw [replace, Edit.effect_bind_of_ok resets]
  refine (?_ : Edit.Keeps holds _) _ held
  refine Edit.keeps_bind_current fun before _ => (Edit.keeps_liftM _).bind fun root => ?_
  cases root with
  | none =>
      refine (Edit.keeps_liftM _).bind fun root => ?_
      cases root with
      | none => exact Edit.keeps_pure _
      | some root => exact keeps_hideBackingSubtree steps.hide root
  | some root =>
      refine (steps.keeps_takeOver delta root).bind fun _ => ?_
      refine Edit.keeps_bind_current fun _ _ => (Edit.keeps_liftM _).bind fun _ => ?_
      refine steps.keeps_hideUncovered.bind fun _ => ?_
      exact Edit.keeps_bind_current fun _ _ => Edit.keeps_liftM _

end AllSteps

/-- A delta for another base is refused before anything has changed, and otherwise its tree replaces the
state. -/
theorem effect_applyDelta (delta : Delta C) (buffer : Buffer C) :
    delta.base = buffer.backingTree.id ∧
        (applyDelta delta).effect buffer = (replace delta.tree.tree).effect buffer ∨
      delta.base ≠ buffer.backingTree.id ∧
        ∃ error, (applyDelta delta).effect buffer = (.error error, buffer) := by
  rw [applyDelta, Edit.effect_current_bind]
  by_cases made : delta.base = buffer.backingTree.id
  · exact .inl ⟨made,
      Edit.effect_liftM_bind (Read.result_require_of_true (decide_eq_true made))⟩
  · exact .inr ⟨made, _,
      Edit.effect_liftM_bind_of_error (Read.result_require_of_false (decide_eq_false made))⟩

end Buffer

end VersionedTrees
