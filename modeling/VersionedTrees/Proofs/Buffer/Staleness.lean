import VersionedTrees.Proofs.Buffer.Grounded
import VersionedTrees.Proofs.View.Handles

/-!
# Stale handles

A handle records one number, the sum of the generations of two trees, and a view finds it stale if the
sum is another one by now. Over two stores that is exact: the sum changes with every edit that succeeds
and with nothing else. Over a buffer the sum changes with every edit of the overlay, but what a buffer
shows also depends on its list of deleted keys, which has no generation. Every edit that changes the
list edits the overlay as well, with one exception. A deletion lists keys as deleted before it can
fail; if it fails then, what is shown has changed and handles are answered for as before
(`BufferEdit.Tears`). Main statement: `Merged.reportsStale_exactly`.
-/

namespace VersionedTrees

variable {C α : Type}

namespace Buffer

variable {start middle buffer after : Buffer C}

/-! ## Edits and the generation of the overlay -/

/-- A buffer over the same backing view, the overlay of which has been edited no less often. -/
structure LeadsTo (start after : Buffer C) : Prop where
  backing : after.backing = start.backing
  settings : after.settings = start.settings
  le : start.overlay.generation ≤ after.overlay.generation

/-- A buffer the overlay of which has been edited more often. -/
structure Advanced (start after : Buffer C) : Prop extends start.LeadsTo after where
  lt : start.overlay.generation < after.overlay.generation

theorem LeadsTo.trans (first : start.LeadsTo middle) (second : middle.LeadsTo after) :
    start.LeadsTo after :=
  ⟨second.backing.trans first.backing, second.settings.trans first.settings,
    Nat.le_trans first.le second.le⟩

theorem LeadsTo.trans_advanced (leads : start.LeadsTo middle) (advanced : middle.Advanced after) :
    start.Advanced after :=
  ⟨leads.trans advanced.toLeadsTo, Nat.lt_of_le_of_lt leads.le advanced.lt⟩

theorem Advanced.trans (advanced : start.Advanced middle) (leads : middle.LeadsTo after) :
    start.Advanced after :=
  ⟨advanced.toLeadsTo.trans leads, Nat.lt_of_lt_of_le advanced.lt leads.le⟩

/-- A buffer that has at most drawn numbers, or the overlay of which has been edited. -/
inductive Counted (start : Buffer C) : Buffer C → Prop where
  | untouched (supply : KeySupply) :
      Counted start { start with overlay := { start.overlay with supply } }
  | advanced {after : Buffer C} (advanced : start.Advanced after) : Counted start after

theorem counted_self (start : Buffer C) : start.Counted start := .untouched start.overlay.supply

theorem Counted.leadsTo (counted : start.Counted after) : start.LeadsTo after := by
  cases counted with
  | untouched supply => exact ⟨rfl, rfl, Nat.le_refl _⟩
  | advanced advanced => exact advanced.toLeadsTo

theorem Counted.trans (first : start.Counted middle) (second : middle.Counted after) :
    start.Counted after := by
  cases first with
  | untouched drawn =>
      cases second with
      | untouched supply => exact .untouched supply
      | advanced advanced =>
          exact .advanced ((Counted.untouched drawn).leadsTo.trans_advanced advanced)
  | advanced advanced => exact .advanced (advanced.trans second.leadsTo)

/-- An edit of the overlay that succeeds is counted, and one that fails leaves all but the supply. -/
theorem counted_onOverlay {edit : Edit (Store C) α}
    (ends : ∀ store : Store C, store.Ends (edit.effect store)) (buffer : Buffer C) :
    buffer.Counted ((onOverlay edit).effect buffer).2 ∧
      (((onOverlay edit).effect buffer).1.isOk →
        buffer.Advanced ((onOverlay edit).effect buffer).2) := by
  rw [onOverlay, Edit.effect_onPart]
  have ended := ends buffer.overlay
  generalize edit.effect buffer.overlay = result at ended
  cases ended with
  | @ok value overlay generation =>
      have lt : buffer.overlay.generation < overlay.generation := by
        rw [generation]
        exact Nat.lt_succ_self _
      have advanced : buffer.Advanced { buffer with overlay } :=
        ⟨⟨rfl, rfl, Nat.le_of_lt lt⟩, lt⟩
      exact ⟨.advanced advanced, fun _ => advanced⟩
  | error supply => exact ⟨.untouched supply, fun succeeded => absurd succeeded Bool.false_ne_true⟩

theorem counted_insertOverlay (parent : Option Key) (placement : Placement) (payload : Payload C)
    (buffer : Buffer C) :
    let ended := (insertOverlay parent placement payload).effect buffer
    buffer.Counted ended.2 ∧ (ended.1.isOk → buffer.Advanced ended.2) := by
  have ends : ∀ store : Store C, store.Ends
      ((Edit.ofFunction (·.insert parent placement payload) : Edit (Store C) Key).effect store) :=
    fun store => store.ends_insert parent placement payload
  exact counted_onOverlay ends buffer

theorem counted_updateOverlay (key : Key) (payload : Payload C) (buffer : Buffer C) :
    let ended := (updateOverlay key payload).effect buffer
    buffer.Counted ended.2 ∧ (ended.1.isOk → buffer.Advanced ended.2) :=
  counted_onOverlay (fun store => store.ends_update key payload) buffer

theorem counted_deleteOverlay (key : Key) (buffer : Buffer C) :
    let ended := (deleteOverlay key).effect buffer
    buffer.Counted ended.2 ∧ (ended.1.isOk → buffer.Advanced ended.2) :=
  counted_onOverlay (fun store => store.ends_delete key) buffer

/-- A property of the buffers that follow one another is kept by the steps of the overlay. -/
theorem overlaySteps_of_counted {holds : Buffer C → Prop} {backing : Tree C}
    (backingTree : ∀ {buffer}, holds buffer → buffer.backingTree = backing)
    (keeps : ∀ {buffer after : Buffer C}, holds buffer → buffer.Counted after → holds after) :
    OverlaySteps backing (fun _ => True) holds where
  backingTree := backingTree
  insertOverlay parent placement payload _ buffer held :=
    keeps held (counted_insertOverlay parent placement payload buffer).1
  updateOverlay key payload _ buffer held := keeps held (counted_updateOverlay key payload buffer).1
  deleteOverlay key buffer held := keeps held (counted_deleteOverlay key buffer).1
  root _ := trivial
  child _ _ := trivial
  payload _ := trivial
  plain _ := trivial
  reference _ _ _ := trivial

theorem LeadsTo.backingTree (leads : start.LeadsTo after) :
    after.backingTree = start.backingTree := by
  rw [Buffer.backingTree, Buffer.backingTree, leads.backing]

theorem overlaySteps_counted (start : Buffer C) :
    OverlaySteps start.backingTree (fun _ => True) start.Counted :=
  overlaySteps_of_counted (fun counted => counted.leadsTo.backingTree) Counted.trans

/-- Once the overlay has been edited, nothing takes that back. -/
theorem allSteps_advanced (start : Buffer C) :
    AllSteps start.backingTree (fun _ => True) start.Advanced where
  toOverlaySteps := overlaySteps_of_counted (fun advanced => advanced.toLeadsTo.backingTree)
    fun advanced counted => advanced.trans counted.leadsTo
  hide _ _ advanced := advanced.trans ⟨rfl, rfl, Nat.le_refl _⟩
  reveal _ _ advanced := advanced.trans ⟨rfl, rfl, Nat.le_refl _⟩

/-! ## Insertions and updates -/

theorem counted_of_insert (parent : Option Key) (placement : Placement) (payload : Payload C)
    (buffer : Buffer C) : buffer.Counted ((insert parent placement payload).effect buffer).2 := by
  have steps := overlaySteps_counted buffer
  refine steps.keeps_insert (fun admitted existed => ?_) buffer buffer.counted_self
  refine Edit.keeps_bind_of_ok (steps.insertOverlay parent placement admitted) ?_
    (fun key => (allSteps_advanced buffer).keeps_afterInsert key existed payload.isTreeReference)
    (fun _ advanced => .advanced advanced)
  intro state after key counted ok
  have advanced := (counted_insertOverlay parent placement payload state).2
  rw [ok] at advanced
  exact counted.leadsTo.trans_advanced (advanced rfl)

theorem counted_of_update (key : Key) (payload : Payload C) (buffer : Buffer C) :
    buffer.Counted ((update key payload).effect buffer).2 := by
  have steps := overlaySteps_counted buffer
  refine steps.keeps_update (fun admitted => ?_) buffer buffer.counted_self
  refine Edit.keeps_bind_of_ok (steps.updateOverlay key admitted) ?_
    (fun _ => Edit.keeps_when ((allSteps_advanced buffer).keeps_restore key))
    (fun _ advanced => .advanced advanced)
  intro state after value counted ok
  have advanced := (counted_updateOverlay key payload state).2
  rw [ok] at advanced
  exact counted.leadsTo.trans_advanced (advanced rfl)

/-! ## Deletions -/

/-- A removal that succeeds has edited the overlay. One that fails has listed some keys as deleted and
has done nothing else. -/
theorem ends_removeOverlaySubtree (key : Key) (buffer : Buffer C) :
    let ended := (removeOverlaySubtree key).effect buffer
    (ended.1.isOk → buffer.Advanced ended.2) ∧
      (¬ ended.1.isOk → ∃ deleted, ended.2 = { buffer with deleted }) := by
  simp only
  rw [removeOverlaySubtree, Edit.effect_current_bind]
  cases read : (buffer.overlay.tree.keysFrom key).result with
  | error error =>
      rw [Edit.effect_liftM_bind_of_error read]
      exact ⟨fun succeeded => absurd succeeded Bool.false_ne_true, fun _ => ⟨buffer.deleted, rfl⟩⟩
  | ok keys =>
      rw [Edit.effect_liftM_bind read]
      have listed := exists_deleted_of_hideNodes keys buffer
      rcases hidden : (keys.forM hideNode).effect buffer with ⟨error | ⟨⟨⟩⟩, middle⟩
      · rw [Edit.effect_bind_of_error hidden]
        rw [hidden] at listed
        exact ⟨fun succeeded => absurd succeeded Bool.false_ne_true, fun _ => listed⟩
      · rw [Edit.effect_bind_of_ok hidden]
        rw [hidden] at listed
        obtain ⟨deleted, rfl⟩ := listed
        constructor
        · intro ok
          have leads : buffer.LeadsTo { buffer with deleted } := ⟨rfl, rfl, Nat.le_refl _⟩
          exact leads.trans_advanced ((counted_deleteOverlay key _).2 ok)
        · intro failed
          rw [deleteOverlay, onOverlay, Edit.effect_onPart, Edit.effect_attempt] at failed ⊢
          cases removed : buffer.overlay.delete key with
          | error error => exact ⟨deleted, rfl⟩
          | ok next =>
              simp only [removed] at failed
              exact absurd rfl failed

/-- A key that the overlay has is there already. -/
theorem effect_reach_of_contains {key : Key} (there : buffer.overlay.contains key = true) :
    (reach key).effect buffer = (.ok (), buffer) := by
  rw [reach, Edit.effect_current_bind, if_pos there]
  rfl

theorem effect_delete_of_contains {key : Key} (there : buffer.overlay.contains key = true) :
    (delete key).effect buffer = (removeOverlaySubtree key).effect buffer :=
  Edit.effect_bind_of_ok (effect_reach_of_contains there)

/-- A deletion of a key that the overlay does not have brings it in first, or does nothing. -/
theorem counted_of_delete {key : Key} (absent : buffer.overlay.contains key = false) :
    buffer.Counted ((delete key).effect buffer).2 := by
  have counted := (overlaySteps_counted buffer).keeps_reach key buffer buffer.counted_self
  rcases reached : (reach key).effect buffer with ⟨error | ⟨⟨⟩⟩, middle⟩
  · rw [delete, Edit.effect_bind_of_error reached]
    rwa [reached] at counted
  · rw [delete, Edit.effect_bind_of_ok reached]
    rw [reached] at counted
    cases counted with
    | untouched supply =>
        have there := contains_of_reach reached
        exact absurd (there.symm.trans absent) (by decide)
    | advanced advanced =>
        exact .advanced ((allSteps_advanced buffer).keeps_removeOverlaySubtree key middle advanced)

end Buffer

namespace BufferEdit

variable {buffer : Buffer C} {edit : BufferEdit C}

/-- An edit fails to delete a node that the overlay has. -/
def Tears (buffer : Buffer C) : BufferEdit C → Prop
  | .delete key => buffer.overlay.contains key = true ∧
      ∃ error after, (Buffer.delete key).effect buffer = (.error error, after)
  | .insert _ _ _ | .update _ _ | .expandAll _ | .replace _ | .applyDelta _ | .reset => False

/-- An edit that tears lists some keys as deleted and does nothing else. -/
theorem Tears.exists_deleted (tears : edit.Tears buffer) :
    ∃ deleted, (edit.edit.effect buffer).2 = { buffer with deleted } := by
  cases edit with
  | delete key =>
      obtain ⟨there, error, after, failed⟩ := tears
      have listed := (Buffer.ends_removeOverlaySubtree key buffer).2
      rw [← Buffer.effect_delete_of_contains there, failed] at listed
      rw [BufferEdit.edit, Edit.effect_map, failed]
      exact listed Bool.false_ne_true
  | insert parent placement payload => exact tears.elim
  | update key payload => exact tears.elim
  | expandAll key => exact tears.elim
  | replace delta => exact tears.elim
  | applyDelta delta => exact tears.elim
  | reset => exact tears.elim

/-- An edit that does not tear edits the overlay, or it leaves all but the supply of fresh keys. -/
theorem counted_of_not_tears (keeps : ¬ edit.Tears buffer) :
    buffer.Counted (edit.edit.effect buffer).2 := by
  have reset : buffer.Advanced (Buffer.reset.effect buffer).2 :=
    ⟨⟨rfl, rfl, Nat.le_succ _⟩, Nat.lt_succ_self _⟩
  cases edit with
  | insert parent placement payload =>
      rw [BufferEdit.edit, Edit.effect_map]
      exact Buffer.counted_of_insert parent placement payload buffer
  | update key payload =>
      rw [BufferEdit.edit, Edit.effect_map]
      exact Buffer.counted_of_update key payload buffer
  | delete key =>
      rw [BufferEdit.edit, Edit.effect_map]
      cases there : buffer.overlay.contains key with
      | false => exact Buffer.counted_of_delete there
      | true =>
          have removes := (Buffer.ends_removeOverlaySubtree key buffer).1
          rw [← Buffer.effect_delete_of_contains there] at removes
          rcases ended : (Buffer.delete key).effect buffer with ⟨error | ⟨⟨⟩⟩, after⟩
          · exact absurd ⟨there, error, after, ended⟩ keeps
          · rw [ended] at removes
            exact .advanced (removes rfl)
  | expandAll key =>
      rw [BufferEdit.edit, Edit.effect_map]
      exact (Buffer.overlaySteps_counted buffer).keeps_expandAll key buffer buffer.counted_self
  | replace delta =>
      rw [BufferEdit.edit, Edit.effect_map]
      exact .advanced ((Buffer.allSteps_advanced buffer).holds_of_replace reset delta)
  | applyDelta delta =>
      rw [BufferEdit.edit, Edit.effect_map]
      rcases Buffer.effect_applyDelta delta buffer with ⟨-, replaced⟩ | ⟨-, error, refused⟩
      · rw [replaced]
        exact .advanced ((Buffer.allSteps_advanced buffer).holds_of_replace reset delta.tree.tree)
      · rw [refused]
        exact buffer.counted_self
  | reset =>
      rw [BufferEdit.edit, Edit.effect_map]
      exact .advanced reset

end BufferEdit

/-! ## Runs -/

namespace Buffer

variable {base : Store C} {buffer after : Buffer C} {edit : BufferEdit C}
  {run : List (BufferEdit C)} {handle : Handle} {accessor : Merged.Accessor}

/-- Two buffers answer all reads alike: as trees, about their overlays, and about deleted keys. -/
structure SameAnswers (after before : Buffer C) : Prop where
  tree : after.tree = before.tree
  overlay : after.overlay.tree = before.overlay.tree
  deleted : after.deleted = before.deleted

theorem SameAnswers.trans {middle before : Buffer C} (second : after.SameAnswers middle)
    (first : middle.SameAnswers before) : after.SameAnswers before :=
  ⟨second.tree.trans first.tree, second.overlay.trans first.overlay,
    second.deleted.trans first.deleted⟩

/-- The buffer that edits lead to, each of which may have failed. -/
def afterEdits (buffer : Buffer C) (run : List (BufferEdit C)) : Buffer C :=
  run.foldl (fun buffer edit => (edit.edit.effect buffer).2) buffer

/-- No edit of a run tears. -/
def NeverTears (buffer : Buffer C) : List (BufferEdit C) → Prop
  | [] => True
  | edit :: run => ¬ edit.Tears buffer ∧ (edit.edit.effect buffer).2.NeverTears run

/-- Every edit of a run tears or changes no answer. -/
def Quiet (buffer : Buffer C) : List (BufferEdit C) → Prop
  | [] => True
  | edit :: run => (edit.Tears buffer ∨ (edit.edit.effect buffer).2.SameAnswers buffer) ∧
      (edit.edit.effect buffer).2.Quiet run

/-- Fresh numbers have no part in an answer. -/
theorem sameAnswers_withSupply (buffer : Buffer C) (supply : KeySupply) :
    ({ buffer with overlay := { buffer.overlay with supply } } : Buffer C).SameAnswers buffer :=
  ⟨rfl, rfl, rfl⟩

/-- An edit that edits the overlay neither tears nor leaves all answers as they were. -/
theorem Advanced.loud (advanced : buffer.Advanced (edit.edit.effect buffer).2) :
    ¬ (edit.Tears buffer ∨ (edit.edit.effect buffer).2.SameAnswers buffer) := by
  rintro (tears | same)
  · obtain ⟨deleted, after_eq⟩ := tears.exists_deleted
    have lt := advanced.lt
    rw [after_eq] at lt
    exact Nat.lt_irrefl _ lt
  · have lt := advanced.lt
    have generation : (edit.edit.effect buffer).2.overlay.generation = buffer.overlay.generation :=
      congrArg Tree.generation same.overlay
    rw [generation] at lt
    exact Nat.lt_irrefl _ lt

/-- One edit leaves the overlay edited more often, or it is quiet and the overlay keeps its count. -/
theorem advanced_or_quiet (edit : BufferEdit C) (buffer : Buffer C) :
    buffer.Advanced (edit.edit.effect buffer).2 ∨
      (edit.Tears buffer ∨ (edit.edit.effect buffer).2.SameAnswers buffer) ∧
        buffer.LeadsTo (edit.edit.effect buffer).2 ∧
        (edit.edit.effect buffer).2.overlay.generation = buffer.overlay.generation := by
  by_cases tears : edit.Tears buffer
  · obtain ⟨deleted, after_eq⟩ := tears.exists_deleted
    rw [after_eq]
    exact .inr ⟨.inl tears, ⟨rfl, rfl, Nat.le_refl _⟩, rfl⟩
  · have counted := BufferEdit.counted_of_not_tears tears
    generalize (edit.edit.effect buffer).2 = after at counted
    cases counted with
    | untouched supply =>
        exact .inr ⟨.inr (buffer.sameAnswers_withSupply supply), ⟨rfl, rfl, Nat.le_refl _⟩, rfl⟩
    | advanced advanced => exact .inl advanced

theorem leadsTo_afterEdits (buffer : Buffer C) (run : List (BufferEdit C)) :
    buffer.LeadsTo (buffer.afterEdits run) := by
  induction run generalizing buffer with
  | nil => exact ⟨rfl, rfl, Nat.le_refl _⟩
  | cons edit run inductionHypothesis =>
      have first : buffer.LeadsTo (edit.edit.effect buffer).2 := by
        rcases advanced_or_quiet edit buffer with advanced | ⟨-, leads, -⟩
        · exact advanced.toLeadsTo
        · exact leads
      exact first.trans (inductionHypothesis _)

/-- The overlay keeps its count over a run exactly if the run is quiet. -/
theorem generation_afterEdits_iff (buffer : Buffer C) (run : List (BufferEdit C)) :
    (buffer.afterEdits run).overlay.generation = buffer.overlay.generation ↔ buffer.Quiet run := by
  induction run generalizing buffer with
  | nil => exact iff_of_true rfl trivial
  | cons edit run inductionHypothesis =>
      change ((edit.edit.effect buffer).2.afterEdits run).overlay.generation = _ ↔ _
      rw [Quiet, ← inductionHypothesis]
      rcases advanced_or_quiet edit buffer with advanced | ⟨quiet, -, generation⟩
      · have lt := (advanced.trans (leadsTo_afterEdits _ run)).lt
        exact iff_of_false (fun same => Nat.ne_of_lt lt same.symm) fun both =>
          advanced.loud both.1
      · rw [generation, and_iff_right quiet]

/-- A quiet run without an edit that tears changes no answer. -/
theorem sameAnswers_of_quiet (quiet : buffer.Quiet run) (never : buffer.NeverTears run) :
    (buffer.afterEdits run).SameAnswers buffer := by
  induction run generalizing buffer with
  | nil => exact ⟨rfl, rfl, rfl⟩
  | cons edit run inductionHypothesis =>
      have first := quiet.1.resolve_left never.1
      exact (inductionHypothesis quiet.2 never.2).trans first

/-- After a run, a handle of a buffer is reported as stale unless the run was quiet. -/
theorem reportsStale_afterEdits_iff (checks : buffer.settings.checkStaleness = true)
    (gives : buffer.merged.Gives handle) (run : List (BufferEdit C)) :
    (buffer.afterEdits run).merged.ReportsStale handle accessor ↔ ¬ buffer.Quiet run := by
  have leads := leadsTo_afterEdits buffer run
  have front : (buffer.afterEdits run).merged.front.NeverStale := Store.neverStale _
  have back : (buffer.afterEdits run).merged.back.NeverStale := View.neverStale _
  have generation : (buffer.afterEdits run).merged.generation =
      (buffer.afterEdits run).overlay.generation + buffer.backingTree.generation := by
    rw [← leads.backingTree]
    rfl
  have settings : (buffer.afterEdits run).merged.settings = buffer.settings := leads.settings
  have before : handle.generation =
      buffer.overlay.generation + buffer.backingTree.generation := gives.generation_eq
  rw [Merged.reportsStale_iff front back, ← generation_afterEdits_iff, before, generation, settings,
    and_iff_right checks, ne_eq, Nat.add_right_cancel_iff, eq_comm]

/-- Over a closed store no edit ever tears. -/
theorem neverTears_of_anyRun (wellFormed : base.WellFormed) (closed : base.Closed)
    (ran : AnyRun base buffer) (run : List (BufferEdit C)) : buffer.NeverTears run := by
  induction run generalizing buffer with
  | nil => trivial
  | cons edit run inductionHypothesis =>
      refine ⟨fun tears => ?_, inductionHypothesis (.step ran edit)⟩
      have grounded := grounded_of_anyRun wellFormed closed ran
      cases edit with
      | delete key =>
          obtain ⟨there, error, after, failed⟩ := tears
          obtain ⟨removed, ok⟩ := grounded.effect_removeOverlaySubtree wellFormed there
          rw [effect_delete_of_contains there, ok] at failed
          cases failed
      | insert parent placement payload => exact tears
      | update key payload => exact tears
      | expandAll key => exact tears
      | replace delta => exact tears
      | applyDelta delta => exact tears
      | reset => exact tears

end Buffer

namespace Merged

variable {front back : Store C} {view later : Merged C} {handle : Handle} {accessor : Accessor}

/-- After calls on the two stores of a view, a handle is reported as stale if one of them has
succeeded, and not otherwise. -/
theorem reportsStale_afterCalls_iff {frontCalls backCalls : List (StoreCall C)}
    (front_eq : view.front = front.tree) (back_eq : view.back = back.tree)
    (gives : view.Gives handle) (later_front : later.front = (front.afterCalls frontCalls).tree)
    (later_back : later.back = (back.afterCalls backCalls).tree)
    (checks : later.settings.checkStaleness = true) :
    later.ReportsStale handle accessor ↔
      0 < front.successes frontCalls + back.successes backCalls := by
  have fresh : later.front.NeverStale := by
    rw [later_front]
    exact Store.neverStale _
  have freshBack : later.back.NeverStale := by
    rw [later_back]
    exact Store.neverStale _
  have before : handle.generation = front.generation + back.generation := by
    rw [gives.generation_eq, generation, front_eq, back_eq]
    rfl
  have after : later.generation = front.generation + front.successes frontCalls +
      (back.generation + back.successes backCalls) := by
    rw [generation, later_front, later_back]
    exact congrArg₂ (· + ·) (front.generation_afterCalls frontCalls)
      (back.generation_afterCalls backCalls)
  rw [reportsStale_iff fresh freshBack, before, after, and_iff_right checks]
  omega

/-- Over two stores a handle is reported as stale, whatever is asked about it, exactly when a call on
one of them has succeeded since. Over a buffer it is reported as stale after any run of edits that has
changed an answer, as long as no edit tore; more exactly, unless all edits of the run tore or changed
no answer. Over a closed store no edit tears. -/
theorem reportsStale_exactly :
    (∀ (front back : Store C) (frontCalls backCalls : List (StoreCall C)) (view later : Merged C)
      (handle : Handle) (accessor : Accessor),
      view.front = front.tree → view.back = back.tree → view.Gives handle →
      later.front = (front.afterCalls frontCalls).tree →
      later.back = (back.afterCalls backCalls).tree → later.settings.checkStaleness = true →
      (later.ReportsStale handle accessor ↔
        0 < front.successes frontCalls + back.successes backCalls)) ∧
    (∀ (buffer : Buffer C) (run : List (BufferEdit C)) (handle : Handle) (accessor : Accessor),
      buffer.settings.checkStaleness = true → buffer.merged.Gives handle →
      (buffer.NeverTears run → ¬ (buffer.afterEdits run).SameAnswers buffer →
        (buffer.afterEdits run).merged.ReportsStale handle accessor) ∧
      ((buffer.afterEdits run).merged.ReportsStale handle accessor ↔ ¬ buffer.Quiet run)) ∧
    ∀ (base : Store C) (buffer : Buffer C) (run : List (BufferEdit C)), base.Reachable →
      base.Closed → AnyRun base buffer → buffer.NeverTears run := by
  refine ⟨?_, ?_, ?_⟩
  · intro front back frontCalls backCalls view later handle accessor front_eq back_eq gives
      later_front later_back checks
    exact reportsStale_afterCalls_iff front_eq back_eq gives later_front later_back checks
  · intro buffer run handle accessor checks gives
    have iff : (buffer.afterEdits run).merged.ReportsStale handle accessor ↔ ¬ buffer.Quiet run :=
      Buffer.reportsStale_afterEdits_iff checks gives run
    refine ⟨fun never differs => iff.mpr fun quiet => ?_, iff⟩
    exact differs (Buffer.sameAnswers_of_quiet quiet never)
  · intro base buffer run reachable closed ran
    exact Buffer.neverTears_of_anyRun reachable.wellFormed closed ran run

/-- A call that fails and then one that succeeds, on the two stores of a view; and a deletion that fails
and one that succeeds, on a buffer over a chain. -/
theorem reportsStale_exactly_chain :
    let front := Store.ofEdits ⟨2⟩ [.insert none (.exactly (.number 1)) (.content "front")]
    let frontCalls : List (StoreCall String) := [.plain (.delete (.number 9))]
    let backCalls : List (StoreCall String) := [.append (.number 3) "below"]
    let view : Merged String := { front := front.tree, back := Store.chain.tree, keys := .identity }
    let between : Merged String :=
      { view with front := (front.afterCalls frontCalls).tree }
    let later : Merged String :=
      { between with back := (Store.chain.afterCalls backCalls).tree }
    let buffer := Buffer.unchanged (.store Store.chain)
    let run : List (BufferEdit String) := [.delete (.number 9), .delete (.number 3)]
    let handle := view.handle (.number 3) (.back (.number 3))
    let given := buffer.merged.handle (.number 3) (.back (.number 3))
    view.Gives handle ∧ (∀ accessor, ¬ between.ReportsStale handle accessor) ∧
      (∀ accessor, later.ReportsStale handle accessor) ∧
      buffer.merged.Gives given ∧ Store.chain.Reachable ∧ Store.chain.Closed ∧
      buffer.NeverTears run ∧ ¬ (buffer.afterEdits run).SameAnswers buffer ∧
      ∀ accessor, (buffer.afterEdits run).merged.ReportsStale given accessor := by
  intro front frontCalls backCalls view between later buffer run handle given
  obtain ⟨ofStores, ofBuffer, closedStore⟩ := reportsStale_exactly (C := String)
  have reachable : Store.chain.Reachable := Store.reachable_ofEdits ⟨1⟩ Store.chainEdits
  have closed := Store.allContent_chain.closed
  have got : (view.get (.number 3)).result = .ok (some handle) := by decide +kernel
  have gives := Gives.get got
  have gotBuffer : (buffer.merged.get (.number 3)).result = .ok (some given) := by decide +kernel
  have givesBuffer := Gives.get gotBuffer
  have failed : front.successes frontCalls + Store.chain.successes [] = 0 := by decide +kernel
  have counted : front.successes frontCalls + Store.chain.successes backCalls = 1 := by
    decide +kernel
  have never := closedStore Store.chain buffer run reachable closed (.fresh {} none)
  have shown : (buffer.tree.contains (.number 3)).result = .ok true := by decide +kernel
  have gone : ((buffer.afterEdits run).tree.contains (.number 3)).result = .ok false := by
    decide +kernel
  have differs : ¬ (buffer.afterEdits run).SameAnswers buffer := by
    intro same
    rw [same.tree, shown] at gone
    cases gone
  refine ⟨gives, fun accessor stale => ?_, fun accessor => ?_, givesBuffer, reachable, closed, never,
    differs, fun accessor => (ofBuffer buffer run given accessor rfl givesBuffer).1 never differs⟩
  · have positive := (ofStores front Store.chain frontCalls [] view between handle accessor rfl rfl
      gives rfl rfl rfl).mp stale
    rw [failed] at positive
    exact Nat.lt_irrefl 0 positive
  · refine (ofStores front Store.chain frontCalls backCalls view later handle accessor rfl rfl gives
      rfl rfl rfl).mpr ?_
    rw [counted]
    decide

end Merged

namespace Buffer

/-- A tree with a reference into itself that has lost its target. -/
def danglingEdits : List (StoreEdit String) :=
  [.insert none (.exactly (.number 1)) (.content "r"),
    .insert (some (.number 1)) (.exactly (.number 2)) (.content "a"),
    .insert (some (.number 2)) (.exactly (.number 3)) (.content "x"),
    .insert (some (.number 1)) (.exactly (.number 5)) (.treeReference ⟨⟨1⟩, .number 9⟩)]

/-- A state with the first subtree of that tree as it is, and with a copy of the reference under the
key that the reference points at. -/
def danglingState : List (StoreEdit String) :=
  [.insert none (.exactly (.number 1)) (.content "r"),
    .insert (some (.number 1)) (.exactly (.number 2)) (.treeReference ⟨⟨1⟩, .number 2⟩),
    .insert (some (.number 1)) (.exactly (.number 9)) (.treeReference ⟨⟨1⟩, .number 5⟩)]

/-- A buffer over that tree in that state. -/
def danglingBuffer : Buffer String :=
  ((replace (Store.ofEdits ⟨7⟩ danglingState).tree).effect
    (unchanged (.store (Store.ofEdits ⟨1⟩ danglingEdits)))).2

/-- A deletion of the root fails at the node that stands for nothing, when it has already listed the
nodes before that one as deleted. A leaf is not shown any more, and its handle is still answered for. -/
theorem not_reportsStale_of_tornDelete :
    let handle := danglingBuffer.merged.handle (.number 3) (.back (.number 3))
    let ended := (delete (.number 1)).effect danglingBuffer
    danglingBuffer.settings.checkStaleness = true ∧ danglingBuffer.merged.Gives handle ∧
      ended.1 = .error (.nodeNotFound (.number 9)) ∧
      (danglingBuffer.tree.contains (.number 3)).result = .ok true ∧
      (ended.2.tree.contains (.number 3)).result = .ok false ∧
      (ended.2.merged.keyOf handle).result = .ok (.number 3) ∧
      ∀ accessor, ¬ ended.2.merged.ReportsStale handle accessor := by
  intro handle ended
  have got : (danglingBuffer.merged.get (.number 3)).result = .ok (some handle) := by
    decide +kernel
  have gives := Merged.Gives.get got
  have sameGeneration : handle.generation = ended.2.merged.generation := by decide +kernel
  refine ⟨by decide +kernel, gives, by decide +kernel, by decide +kernel, by decide +kernel,
    by decide +kernel, fun accessor stale => ?_⟩
  have front : ended.2.merged.front.NeverStale := Store.neverStale _
  have back : ended.2.merged.back.NeverStale := View.neverStale _
  exact ((Merged.reportsStale_iff front back handle accessor).mp stale).2 sameGeneration

end Buffer

end VersionedTrees
