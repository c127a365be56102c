import VersionedTrees.Proofs.Buffer.CoherentRuns
import VersionedTrees.Proofs.Store.Runs

/-!
# Edits of a change buffer that fail

An edit may bring nodes into the overlay before it fails, and an insertion that finds its key taken
takes the new node out again. None of that is seen, with one exception. Below an opaque parent the key
of a new node is a number that the overlay draws, and the overlay may have that number already, as the
key of a node that came from the base. Then the new node takes the place of the old one, and what is
taken out again is the old one (`BufferEdit.Overdraws`). An edit that fails leaves all reads as they
were exactly if this does not happen (`Buffer.sameReads_of_failed_iff`).
-/

namespace VersionedTrees

variable {C : Type}

namespace Tree

/-- What reads like a coherent tree is coherent. -/
theorem SameReads.coherent {left right : Tree C} (same : left.SameReads right)
    (coherent : right.Coherent) : left.Coherent := by
  obtain ⟨keys, told, nodup, contains, parent_iff, root_iff⟩ := coherent
  refine ⟨keys, same.keys.trans told, nodup, fun key => (same.contains key).trans (contains key),
    fun key parent => ?_, fun key => ?_⟩
  · rw [same.parent, same.children]
    exact parent_iff key parent
  · rw [same.parent, same.rootKey]
    exact root_iff key

end Tree

namespace Store

variable {store : Store C} {parent key : Key} {place : Place} {payload : Payload C}
  {error : TreeError}

/-- A store refuses a node below an opaque parent for want of the parent, for want of numbers, or since
the number that was drawn is that of a node above. -/
theorem not_generatedTaken_of_insert (opaqueParent : parent.position? = none)
    (failed : (store.insert (some parent) (.automatic place) payload).1 = .error error) :
    error ≠ .shape (.generatedTaken key) := by
  rintro rfl
  simp only [Store.insert, allocate, opaqueParent, freshKey] at failed
  split at failed
  · cases taken : store.supply.take? with
    | none =>
        rw [taken] at failed
        cases failed
    | some drawn =>
        simp only [taken, putBelow] at failed
        split at failed
        · rename_i refused
          cases failed
          split at refused
          · cases refused
          · cases refused
          · split at refused <;> cases refused
        · cases failed
  · cases failed

end Store

namespace Changes

variable {base : Store C} {changes fewer : Changes C} {key : Key} {standing : Standing C}

/-- Two sound changes hide the same, and the overlay of one is part of that of the other. Then the
larger overlay has no base nodes that the smaller one lacks and that are not hidden. -/
theorem Sound.absent_of_fewer (sound : changes.Sound base) (soundFewer : fewer.Sound base)
    (isTree : base.layout.IsTree) (deleted_eq : fewer.deleted = changes.deleted)
    (part : ∀ key standing, fewer.overlay key = some standing →
      changes.overlay key = some standing)
    (nonempty : ∃ key, fewer.overlay.Holds key) (holds : base.layout.Holds key)
    (absent : fewer.overlay key = none) (kept : ¬ changes.deleted key) :
    changes.overlay key = none := by
  rw [← deleted_eq] at kept
  revert absent kept
  refine isTree.induction key holds ?_ ?_
  · intro root isRoot absent kept
    obtain ⟨other, there⟩ := nonempty
    exact absurd (soundFewer.rootCovered root absent kept isRoot other)
      (Layout.holds_iff_ne_none.mp there)
  · intro key parent isChild _ inductionHypothesis absent kept
    -- the base parent is read from the base, with either overlay
    have back : changes.ReadsBack parent := by
      rcases soundFewer.covered key parent absent kept isChild with
        ⟨above, reference, found⟩ | ⟨absent, kept⟩
      · exact .inl ⟨above, reference, part parent _ found⟩
      · refine .inr ⟨inductionHypothesis absent kept, ?_⟩
        rwa [← deleted_eq]
    rw [← Layout.not_holds_iff]
    intro inside
    rw [deleted_eq] at kept
    exact sound.exclusive key parent inside kept isChild back

/-- To leave out overlay nodes keeps changes valid. -/
theorem Valid.prune (valid : changes.Valid base) (top : Key) : (changes.prune top).Valid base where
  isTree := valid.isTree.prune top
  admits key standing found := valid.admits key standing (Layout.prune_eq_some.mp found).1
  leaf := by
    rintro key child ⟨above, reference, found⟩ isChild
    exact valid.leaf key child ⟨above, reference, (Layout.prune_eq_some.mp found).1⟩
      (Layout.isChild_prune_iff.mp isChild).1

/-- A node that came from the base and is neither hidden nor in the overlay any more is missed. -/
theorem Sound.not_sound_prune_place (sound : changes.Sound base) (isTree : base.layout.IsTree)
    {parent : Key} {payload : Payload C}
    (placed : (changes.place key ⟨some parent, payload⟩).overlay.IsTree)
    (holds : changes.overlay.Holds key) (there : base.layout.Holds key)
    (kept : ¬ changes.deleted key) :
    ¬ ((changes.place key ⟨some parent, payload⟩).prune key).Sound base := by
  intro soundAfter
  have isChild : (changes.place key ⟨some parent, payload⟩).overlay.IsChild key parent :=
    ⟨payload, Layout.place_self _ _ _⟩
  refine Layout.holds_iff_ne_none.mp holds
    (sound.absent_of_fewer soundAfter isTree rfl ?_ ?_ there ?_ kept)
  · intro other standing found
    obtain ⟨found, outside⟩ := Layout.prune_eq_some.mp found
    have different : key ≠ other := by
      rintro rfl
      exact outside (placed.within_self isChild.holds)
    rwa [overlay_place, Layout.place_of_ne different] at found
  · exact ⟨parent, Layout.prune_holds_iff.mpr
      ⟨placed.parent_holds isChild, isChild.not_within placed⟩⟩
  · exact Layout.prune_of_within (placed.within_self isChild.holds)

end Changes

/-! ## What a failed edit leaves -/

namespace BufferEdit

/-- An edit that fails with an error draws a number that the overlay has, once the parent of the new
node has been brought into it with its children. -/
def Overdraws (buffer : Buffer C) (error : TreeError) : BufferEdit C → Prop
  | .insert (some parent) (.automatic _) _ =>
    parent.position? = none ∧ ∃ key, error = .shape (.generatedTaken key) ∧
      ((Buffer.prepareParent (some parent)).effect buffer).2.overlay.contains key = true
  | _ => False

/-- An edit inserts, updates or deletes a node. -/
def OnNode : BufferEdit C → Prop
  | .insert _ _ _ | .update _ _ | .delete _ => True
  | .expandAll _ | .replace _ | .applyDelta _ | .reset => False

/-- Only an insertion that finds its key taken overdraws. -/
theorem Overdraws.exists_key {buffer : Buffer C} {error : TreeError} {edit : BufferEdit C}
    (overdraws : edit.Overdraws buffer error) : ∃ key, error = .shape (.generatedTaken key) := by
  cases edit with
  | insert parent placement payload =>
      cases parent with
      | none => exact overdraws.elim
      | some parent =>
          cases placement with
          | exactly key => exact overdraws.elim
          | automatic place =>
              obtain ⟨-, key, same, -⟩ := overdraws
              exact ⟨key, same⟩
  | update key payload => exact overdraws.elim
  | delete key => exact overdraws.elim
  | expandAll key => exact overdraws.elim
  | replace delta => exact overdraws.elim
  | applyDelta delta => exact overdraws.elim
  | reset => exact overdraws.elim

/-- An insertion under a key that the caller chooses does not overdraw. -/
theorem not_overdraws_of_explicit {parent : Option Key} {placement : Placement} {key : Key}
    (explicit : Buffer.explicitKey parent placement = some key) (buffer : Buffer C)
    (error : TreeError) (payload : Payload C) :
    ¬ (BufferEdit.insert parent placement payload).Overdraws buffer error := by
  cases parent with
  | none => exact id
  | some parent =>
      cases placement with
      | exactly key => exact id
      | automatic place => cases explicit

end BufferEdit

namespace Buffer

variable {base : Store C} {changes last : Changes C} {buffer after : Buffer C} {key : Key}
  {parent : Option Key} {placement : Placement} {payload : Payload C} {error : TreeError}

/-- What an edit leaves that failed on sound changes. Either it is not seen, or it overdrew and the
changes are not sound any more. -/
inductive Failure (base : Store C) (changes : Changes C) (buffer after : Buffer C)
    (edit : BufferEdit C) (error : TreeError) : Prop where
  | unseen {next : Changes C} (unfolded : Unfolded base changes after next)
      (kept : ¬ edit.Overdraws buffer error)
  | overdrawn {next : Changes C} (overdraws : edit.Overdraws buffer error)
      (records : after.Records base next) (valid : next.Valid base) (unsound : ¬ next.Sound base)

/-- An overlay that refuses a node keeps all nodes that it had. -/
theorem Records.refused (records : buffer.Records base changes)
    (failed : (Buffer.insertOverlay parent placement payload).effect buffer = (.error error, after)) :
    after.Records base changes := by
  rw [effect_insertOverlay, Prod.mk.injEq] at failed
  obtain ⟨told, rfl⟩ := failed
  have ends := Store.ends_insert buffer.overlay parent placement payload
  generalize buffer.overlay.insert parent placement payload = ended at told ends
  cases ends with
  | ok counted => cases told
  | error supply =>
      exact ⟨records.backing, records.wellFormed.withSupply supply, records.overlay, records.deleted⟩

/-- A new node is taken out again if its key is shown by the base and not hidden. -/
theorem Records.rejected {isTreeReference : Bool} (records : buffer.Records base changes)
    (holds : changes.overlay.Holds key)
    (failed : (Buffer.rejectTakenKey key isTreeReference).effect buffer = (.error error, after)) :
    error = .shape (.generatedTaken key) ∧ base.layout.Holds key ∧ ¬ changes.deleted key ∧
      after.Records base (changes.prune key) := by
  have contains : (buffer.backingTree.contains key).result = .ok (base.contains key) := by
    rw [records.backingTree]
    rfl
  obtain ⟨last, deleted, records'⟩ := records.deleteOverlay holds
  rw [rejectTakenKey, Edit.effect_current_bind, Edit.effect_liftM_bind contains,
    Edit.effect_when] at failed
  split at failed
  · rename_i taken
    rw [Bool.and_eq_true, Bool.and_eq_true, Bool.not_eq_true', ← Bool.not_eq_true,
      records.contains_deleted, Store.contains_iff_holds] at taken
    obtain ⟨⟨there, kept⟩, -⟩ := taken
    rw [takeBack, Edit.effect_bind_of_ok deleted, Edit.effect_fail, Prod.mk.injEq] at failed
    obtain ⟨same, rfl⟩ := failed
    exact ⟨(Except.error.inj same).symm, there, kept, records'⟩
  · cases failed

/-- A payload is refused for the tree or for the node that it points at. -/
theorem Records.not_generatedTaken_of_checkPayload (records : buffer.Records base changes)
    (failed : (buffer.checkPayload payload).result = .error error) :
    error ≠ .shape (.generatedTaken key) := by
  rintro rfl
  rw [checkPayload] at failed
  cases points : payload.reference? with
  | none =>
      rw [points] at failed
      cases failed
  | some reference =>
      rw [points] at failed
      have contains : (buffer.backingTree.contains reference.key).result =
          .ok (base.contains reference.key) := by
        rw [records.backingTree]
        rfl
      by_cases sameTree : reference.tree = buffer.backingTree.id
      · rw [Read.result_bind_of_ok (Read.result_require_of_true (decide_eq_true sameTree)),
          Read.result_bind_of_ok contains] at failed
        cases there : base.contains reference.key with
        | true =>
            rw [Read.result_require_of_true there] at failed
            cases failed
        | false =>
            rw [Read.result_require_of_false there] at failed
            cases failed
      · rw [Read.result_bind_of_error (Read.result_require_of_false (decide_eq_false sameTree))]
          at failed
        cases failed

theorem not_generatedTaken_of_checkInsertedReference {explicit : Option Key}
    (failed : (checkInsertedReference explicit payload).result = .error error) :
    error ≠ .shape (.generatedTaken key) := by
  rintro rfl
  cases payload with
  | content value => cases failed
  | nodeReference reference => cases failed
  | treeReference reference =>
      rw [checkInsertedReference] at failed
      by_cases stored : explicit = some reference.key
      · rw [Read.result_require_of_true (decide_eq_true stored)] at failed
        cases failed
      · rw [Read.result_require_of_false (decide_eq_false stored)] at failed
        cases failed

section Failing

variable (records : buffer.Records base changes) (sound : changes.Sound base)
  (wellFormed : base.WellFormed) (allContent : base.AllContent)

include records sound wellFormed in
/-- Once everything is prepared, an insertion fails as the overlay does or since its key is taken. -/
theorem refused_or_rejected {existed : Bool}
    (prepared : Prepared base changes parent (explicitKey parent placement) payload existed)
    (resolves : base.Resolves payload)
    (stored : (checkInsertedReference (explicitKey parent placement) payload).result = .ok ())
    (failed : (placeNode parent placement payload existed).effect buffer = (.error error, after)) :
    (insertOverlay parent placement payload).effect buffer = (.error error, after) ∨
      ∃ key middle, (insertOverlay parent placement payload).effect buffer = (.ok key, middle) ∧
        existed = false ∧
        (rejectTakenKey key payload.isTreeReference).effect middle = (.error error, after) := by
  cases inserted : (insertOverlay parent placement payload).effect buffer with
  | mk told middle =>
      cases told with
      | error refused =>
          rw [effect_placeNode_of_error inserted] at failed
          exact .inl failed
      | ok key =>
          refine .inr ⟨key, middle, rfl, ?_⟩
          have records' := records.placed inserted
          rw [placeNode, Edit.effect_bind_of_ok inserted] at failed
          -- to restore a node never fails
          have finished : ∃ last, (Edit.when payload.isTreeReference (restore key)).effect middle =
              (.ok (), last) := by
            cases kind : payload.isTreeReference with
            | false => exact ⟨middle, rfl⟩
            | true =>
                have enters := prepared.enters resolves stored inserted fun automatic =>
                  absurd kind (not_isTreeReference_of_automatic automatic stored)
                obtain ⟨last, -, restored, -⟩ :=
                  records'.stored wellFormed sound.toValid enters.admits enters.below
                rw [kind] at restored
                exact ⟨last, restored⟩
          obtain ⟨last, finished⟩ := finished
          have passed : ∀ {checked : Buffer C}, (Edit.when (!existed)
              (rejectTakenKey key payload.isTreeReference)).effect middle = (.ok (), checked) →
              checked ≠ middle := by
            rintro checked ok rfl
            rw [Edit.effect_bind_of_ok ok, Edit.effect_bind_of_ok finished] at failed
            cases failed
          cases existed with
          | true => exact absurd rfl (passed rfl)
          | false =>
              refine ⟨rfl, ?_⟩
              cases rejected : (rejectTakenKey key payload.isTreeReference).effect middle with
              | mk result checked =>
                  cases result with
                  | error refused =>
                      have refuses : (Edit.when (!false) (rejectTakenKey key
                          payload.isTreeReference)).effect middle = (.error refused, checked) :=
                        rejected
                      rw [Edit.effect_bind_of_error refuses] at failed
                      cases failed
                      rfl
                  | ok done =>
                      exact absurd (gone_of_rejectTakenKey records' rejected).1 (passed rejected)

include records sound in
/-- A drawn number that the overlay has costs the node that it belongs to. A key that it lacks is free
again once the new node is taken out. -/
theorem failure_of_rejected {place : Place} {above key : Key} {middle : Buffer C}
    (isTree : base.layout.IsTree) (admits : base.Admits key payload)
    (below : changes.overlay.Holds above ∧ ¬ changes.IsLazy above)
    (notReference : payload.isTreeReference = false)
    (inserted : (insertOverlay (some above) (.automatic place) payload).effect buffer =
      (.ok key, middle))
    (failed : (rejectTakenKey key payload.isTreeReference).effect middle = (.error error, after)) :
    error = .shape (.generatedTaken key) ∧
      (changes.overlay key = none ∧ after.Records base changes ∨
        changes.overlay.Holds key ∧ ∃ next, after.Records base next ∧ next.Valid base ∧
          ¬ next.Sound base) := by
  have records' := records.placed inserted
  have placed := records'.isTree_overlay
  obtain ⟨same, there, kept, pruned⟩ := records'.rejected ⟨_, Layout.place_self _ _ _⟩ failed
  refine ⟨same, ?_⟩
  cases found : changes.overlay key with
  | none =>
      have undone : (changes.place key ⟨some above, payload⟩).prune key = changes :=
        Changes.ext (sound.isTree.prune_place found below.1) rfl
      rw [undone] at pruned
      exact .inl ⟨rfl, pruned⟩
  | some standing =>
      have enters : changes.Enters base key ⟨some above, payload⟩ := by
        refine ⟨admits, ?_, .inl ⟨standing, found⟩, nonempty_of_holds ⟨standing, found⟩⟩
        rintro _ ⟨⟩
        exact below.2
      exact .inr ⟨⟨standing, found⟩, _, pruned, (enters.valid_place sound notReference placed).prune key,
        sound.not_sound_prune_place isTree placed ⟨standing, found⟩ there kept⟩

include records sound wellFormed allContent

omit sound in
/-- What an insertion leaves that fails after its parent was prepared. -/
theorem failure_of_prepared {first : Buffer C} {middle : Changes C}
    (checked : (buffer.checkPayload payload).result = .ok ())
    (stored : (checkInsertedReference (explicitKey parent placement) payload).result = .ok ())
    (prepared : (prepareParent parent).effect buffer = (.ok (), first))
    (unfolded : Unfolded base changes first middle)
    (below : ∀ above, parent = some above → middle.overlay.Holds above ∧ ¬ middle.IsLazy above)
    (nonempty : (∀ key, middle.overlay key = none) → ∀ key, middle.shown base key = none)
    (failed : (insert parent placement payload).effect buffer = (.error error, after)) :
    Failure base changes buffer after (.insert parent placement payload) error := by
  have resolves := resolves_of_checkPayload records checked
  obtain ⟨existed, second, third, last, moved, expanded, onward, ready, -⟩ :=
    exists_prepared_node unfolded.records unfolded.sound wellFormed allContent unfolded below
      nonempty placement payload
  rw [effect_insert checked stored prepared moved expanded] at failed
  have ended := refused_or_rejected onward.records onward.sound wellFormed ready resolves stored
    failed
  cases explicit : explicitKey parent placement with
  | some chosen =>
      have kept := BufferEdit.not_overdraws_of_explicit explicit buffer error payload
      rcases ended with refused | ⟨key, fourth, inserted, rfl, rejected⟩
      · exact .unseen { onward with records := onward.records.refused refused } kept
      · -- a key that the caller chooses and that was not there is not shown
        obtain rfl := key_of_insertOverlay explicit inserted
        obtain ⟨-, there, notHidden, -⟩ := (onward.records.placed inserted).rejected
          ⟨_, Layout.place_self _ _ _⟩ rejected
        obtain ⟨-, gone⟩ := (ready.found key explicit).resolve_left fun found => nomatch found.1
        rcases (Changes.shown_eq_none_iff.mp gone).2 with hidden | absent
        · exact absurd hidden notHidden
        · exact absurd absent (Layout.holds_iff_ne_none.mp there)
  | none =>
      obtain ⟨above, place, rfl, rfl⟩ := exists_of_automatic explicit
      have below := ready.below above rfl
      -- there is nothing to prepare but the parent
      obtain rfl := ready.drawn explicit
      obtain rfl : second = first := Edit.after_unique moved rfl
      obtain rfl : third = second := Edit.after_unique expanded rfl
      rcases ended with refused | ⟨key, fourth, inserted, -, rejected⟩
      · refine .unseen { onward with records := onward.records.refused refused } ?_
        rintro ⟨opaqueParent, key, rfl, -⟩
        have inserted := insert_of_insertOverlay refused
        exact Store.not_generatedTaken_of_insert opaqueParent (congrArg Prod.fst inserted) rfl
      · have notReference := not_isTreeReference_of_automatic explicit stored
        rw [Bool.not_eq_true] at notReference
        have admits : base.Admits key payload := by
          apply resolves.admits
          rintro reference rfl
          cases notReference
        obtain ⟨rfl, ⟨absent, records'⟩ | ⟨holds, next, records', valid, unsound⟩⟩ :=
          failure_of_rejected onward.records onward.sound wellFormed.isTree admits below
            notReference inserted rejected
        · refine .unseen { onward with records := records' } ?_
          rintro ⟨-, other, same, contains⟩
          cases same
          rw [prepared, onward.records.contains_overlay] at contains
          exact Layout.not_holds_iff.mpr absent contains
        · refine .overdrawn ⟨?_, key, rfl, ?_⟩ records' valid unsound
          · cases positioned : above.position? with
            | none => rfl
            | some position =>
                have absent := onward.records.absent_of_insertOverlay positioned inserted
                exact absurd absent (Layout.holds_iff_ne_none.mp holds)
          · rw [prepared]
            exact onward.records.contains_overlay.mpr holds

/-- What an insertion leaves that fails. -/
theorem failure_of_insert
    (failed : (insert parent placement payload).effect buffer = (.error error, after)) :
    Failure base changes buffer after (.insert parent placement payload) error := by
  have early : (∀ key, error ≠ .shape (.generatedTaken key)) → after = buffer →
      Failure base changes buffer after (.insert parent placement payload) error := by
    rintro other rfl
    refine .unseen (.refl records sound) fun overdraws => ?_
    obtain ⟨key, same⟩ := overdraws.exists_key
    exact other key same
  cases checked : (buffer.checkPayload payload).result with
  | error refused =>
      rw [insert, Edit.effect_current_bind, Edit.effect_liftM_bind_of_error checked] at failed
      cases failed
      exact early (fun key => records.not_generatedTaken_of_checkPayload checked) rfl
  | ok done =>
      cases stored : (checkInsertedReference (explicitKey parent placement) payload).result with
      | error refused =>
          rw [insert, Edit.effect_current_bind, Edit.effect_liftM_bind checked,
            Edit.effect_liftM_bind_of_error stored] at failed
          cases failed
          exact early (fun key => not_generatedTaken_of_checkInsertedReference stored) rfl
      | ok done =>
          rcases prepareParent_cases records sound wellFormed allContent parent with
            ⟨above, rfl, absent⟩ | ⟨first, middle, prepared, unfolded, below, nonempty, -⟩
          · rw [effect_insert_of_error checked stored
              (effect_prepareParent_of_absent records absent)] at failed
            cases failed
            exact early (fun key same => by cases same) rfl
          · exact failure_of_prepared records wellFormed allContent checked stored prepared
              unfolded below nonempty failed

/-- An update that fails is not seen. -/
theorem failure_of_update (failed : (update key payload).effect buffer = (.error error, after)) :
    Failure base changes buffer after (.update key payload) error := by
  have early : after = buffer → Failure base changes buffer after (.update key payload) error := by
    rintro rfl
    exact .unseen (.refl records sound) id
  have start := failed
  rw [update, Edit.effect_current_bind] at start
  cases checked : (buffer.checkPayload payload).result with
  | error refused =>
      rw [Edit.effect_liftM_bind_of_error checked] at start
      cases start
      exact early rfl
  | ok done =>
      rw [Edit.effect_liftM_bind checked] at start
      cases stored : (checkUpdatedReference key payload).result with
      | error refused =>
          rw [Edit.effect_liftM_bind_of_error stored] at start
          cases start
          exact early rfl
      | ok done =>
          by_cases absent : changes.shown base key = none
          · rw [Edit.effect_liftM_bind stored,
              Edit.effect_bind_of_error (effect_reach_of_absent records absent)] at start
            cases start
            exact early rfl
          · obtain ⟨prepared, middle, last, above, old, same, records', unfolded, enters, -⟩ :=
              exists_update records sound wellFormed allContent checked stored
                (Layout.holds_iff_ne_none.mpr absent)
            obtain ⟨last, final, finished, -⟩ :=
              records'.stored wellFormed unfolded.sound.toValid enters.admits enters.below
            rw [same, finished] at failed
            cases failed

/-- A deletion that fails is not seen. -/
theorem failure_of_delete (failed : (delete key).effect buffer = (.error error, after)) :
    Failure base changes buffer after (.delete key) error := by
  rw [delete] at failed
  by_cases absent : changes.shown base key = none
  · rw [Edit.effect_bind_of_error (effect_reach_of_absent records absent)] at failed
    cases failed
    exact .unseen (.refl records sound) id
  · obtain ⟨middle, last, reached, unfolded, inside⟩ :=
      unfolds_reach records sound wellFormed allContent (Layout.holds_iff_ne_none.mpr absent)
    obtain ⟨final, removed, -⟩ :=
      unfolded.records.removeOverlaySubtree wellFormed unfolded.sound.admits inside
    rw [Edit.effect_bind_of_ok reached, removed] at failed
    cases failed

/-- What an edit of a node leaves that fails. -/
theorem failure_of_edit {edit : BufferEdit C} (onNode : edit.OnNode)
    (failed : edit.edit.effect buffer = (.error error, after)) :
    Failure base changes buffer after edit error := by
  cases edit with
  | insert parent placement payload =>
      exact failure_of_insert records sound wellFormed allContent (Edit.effect_map_eq_error failed)
  | update key payload =>
      exact failure_of_update records sound wellFormed allContent (Edit.effect_map_eq_error failed)
  | delete key =>
      exact failure_of_delete records sound wellFormed allContent (Edit.effect_map_eq_error failed)
  | expandAll key => exact onNode.elim
  | replace delta => exact onNode.elim
  | applyDelta delta => exact onNode.elim
  | reset => exact onNode.elim

end Failing

end Buffer

/-! ## Runs with failed edits -/

/-- A buffer after a run of edits that succeeded and settled, or failed and did not overdraw. -/
inductive TidyRun (base : Store C) : Buffer C → Prop where
  | clean {buffer : Buffer C} (run : CleanRun base buffer) : TidyRun base buffer
  | step {buffer after : Buffer C} (run : TidyRun base buffer) (edit : BufferEdit C)
      {told : Option Key} (ok : edit.edit.effect buffer = (.ok told, after))
      (settles : edit.Settles base after told) : TidyRun base after
  | failed {buffer after : Buffer C} (run : TidyRun base buffer) (edit : BufferEdit C)
      (enduring : ¬ edit.Renews) {error : TreeError}
      (failed : edit.edit.effect buffer = (.error error, after))
      (kept : ¬ edit.Overdraws buffer error) : TidyRun base after

namespace Buffer

variable {base : Store C} {buffer after : Buffer C} {edit : BufferEdit C} {error : TreeError}

/-- An edit that fails without overdrawing leaves sound changes. -/
theorem isSound_of_failed (wellFormed : base.WellFormed) (allContent : base.AllContent)
    (sound : IsSound base buffer) (enduring : ¬ edit.Renews)
    (failed : edit.edit.effect buffer = (.error error, after))
    (kept : ¬ edit.Overdraws buffer error) : IsSound base after := by
  by_cases onNode : edit.OnNode
  · obtain ⟨changes, records, soundChanges⟩ := sound
    cases failure_of_edit records soundChanges wellFormed allContent onNode failed with
    | unseen unfolded kept => exact ⟨_, unfolded.records, unfolded.sound⟩
    | overdrawn overdraws => exact absurd overdraws kept
  · cases edit with
    | expandAll key =>
        have expanded := Edit.effect_map_eq_error failed
        have keeps := keeps_expandAll wellFormed allContent key buffer sound
        rwa [expanded] at keeps
    | insert parent placement payload => exact absurd trivial onNode
    | update key payload => exact absurd trivial onNode
    | delete key => exact absurd trivial onNode
    | replace delta => exact absurd trivial enduring
    | applyDelta delta => exact absurd trivial enduring
    | reset => exact absurd trivial enduring

/-- A tidy run ends with sound changes. -/
theorem isSound_of_tidyRun (wellFormed : base.WellFormed) (allContent : base.AllContent)
    (run : TidyRun base buffer) : IsSound base buffer := by
  induction run with
  | clean run => exact isSound_of_cleanRun wellFormed allContent run
  | step _ edit ok settles inductionHypothesis =>
      obtain ⟨final, records, -, sound_iff⟩ :=
        settled_of_edit wellFormed allContent inductionHypothesis ok
      exact ⟨final, records, sound_iff.mpr settles⟩
  | failed _ edit enduring failed kept inductionHypothesis =>
      exact isSound_of_failed wellFormed allContent inductionHypothesis enduring failed kept

/-- After a tidy run, an insertion, update or deletion that fails leaves all reads as they were exactly
if it did not overdraw. -/
theorem sameReads_of_failed_iff (reachable : base.Reachable) (allContent : base.AllContent)
    (run : TidyRun base buffer) (onNode : edit.OnNode)
    (failed : edit.edit.effect buffer = (.error error, after)) :
    after.tree.SameReads buffer.tree ↔ ¬ edit.Overdraws buffer error := by
  have wellFormed := reachable.wellFormed
  obtain ⟨changes, records, sound⟩ := isSound_of_tidyRun wellFormed allContent run
  have shows := records.shows allContent wellFormed sound
  cases failure_of_edit records sound wellFormed allContent onNode failed with
  | unseen unfolded kept =>
      have showsAfter := unfolded.records.shows allContent wellFormed unfolded.sound
      rw [unfolded.shown_eq] at showsAfter
      exact iff_of_true (showsAfter.sameReads shows) kept
  | overdrawn overdraws records' valid unsound =>
      refine iff_of_false (fun same => ?_) (not_not_intro overdraws)
      have coherent := same.coherent shows.coherent
      exact unsound ((records'.coherent_iff allContent wellFormed valid).mp coherent)

/-- The root of a chain cannot be moved below the leaf, and what was brought into the overlay for that
is not seen. -/
theorem sameReads_of_failed_iff_chain :
    let edit : BufferEdit String :=
      .insert (some (.number 3)) (.exactly (.number 1)) (.content "moved")
    let buffer := unchanged (.store Store.chain)
    let error : TreeError := .shape (.rootBelow (.number 1) (.number 3))
    let after := (edit.edit.effect buffer).2
    Store.chain.Reachable ∧ Store.chain.AllContent ∧ TidyRun Store.chain buffer ∧ edit.OnNode ∧
      edit.edit.effect buffer = (.error error, after) ∧ after.overlay.size = 3 ∧
      after.tree.SameReads buffer.tree := by
  intro edit buffer error after
  have reachable := Store.reachable_ofEdits ⟨1⟩ Store.chainEdits
  have run : TidyRun Store.chain buffer := .clean (.fresh {} none)
  have onNode : edit.OnNode := trivial
  have failed : edit.edit.effect buffer = (.error error, after) :=
    Edit.effect_eq_of_result (by decide +kernel)
  exact ⟨reachable, Store.allContent_chain, run, onNode, failed, by decide +kernel,
    (sameReads_of_failed_iff reachable Store.allContent_chain run onNode failed).mpr id⟩

/-- A tree with an opaque root whose child has the first number that a supply gives out. -/
def numberedEdits : List (StoreEdit String) :=
  [.insert none (.exactly (.text "root")) (.content "root"),
    .insert (some (.text "root")) (.exactly (.number 0)) (.content "leaf")]

/-- An insertion below the root of that tree fails, and the child is gone. -/
theorem keys_lost_by_failed_insert :
    let base := Store.ofEdits ⟨1⟩ numberedEdits
    let edit : BufferEdit String :=
      .insert (some (.text "root")) (.automatic .last) (.content "new")
    let buffer := unchanged (.store base)
    let ended := edit.edit.effect buffer
    base.Reachable ∧ base.AllContent ∧ TidyRun base buffer ∧ edit.OnNode ∧
      ended.1 = .error (.shape (.generatedTaken (.number 0))) ∧
      buffer.tree.keys.result = .ok [.text "root", .number 0] ∧
      ended.2.tree.keys.result = .ok [.text "root"] ∧ ¬ ended.2.tree.SameReads buffer.tree := by
  intro base edit buffer ended
  have before : buffer.tree.keys.result = .ok [.text "root", .number 0] := by decide +kernel
  have afterwards : ended.2.tree.keys.result = .ok [.text "root"] := by decide +kernel
  refine ⟨Store.reachable_ofEdits _ _, Store.allContent_iff_entries.mpr (by decide +kernel),
    .clean (.fresh {} none), trivial, by decide +kernel, before, afterwards, fun same => ?_⟩
  have keys := same.keys
  rw [before, afterwards] at keys
  exact absurd keys (by decide)

end Buffer

end VersionedTrees
