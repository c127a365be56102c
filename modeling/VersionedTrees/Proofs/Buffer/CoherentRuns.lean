import VersionedTrees.Buffer.Edit
import VersionedTrees.Proofs.Buffer.Invariants
import VersionedTrees.Proofs.Buffer.Replace
import VersionedTrees.Proofs.Buffer.Restore
import VersionedTrees.Proofs.Store.Reachable

/-!
# Runs that keep a buffer coherent

Two edits can leave a buffer that does not read as one tree. To store a tree-reference shows the whole
base subtree of its target again, also where a node with content that was taken out of it has lost
base children, and also where the target itself was taken out from below a node that is lazy again.
And a number that is drawn for a new node may be that of a lazy node, whose children are then left
without a parent. `BufferEdit.Settles` says when neither happens. As long as all edits of a run settle
the buffer is coherent, and the first one that does not makes it incoherent
(`Buffer.coherent_of_cleanRun`).
-/

namespace VersionedTrees

variable {C : Type}

namespace Buffer

variable {base : Store C} {changes : Changes C} {buffer after : Buffer C} {key : Key}
  {parent above : Option Key} {placement : Placement} {payload : Payload C}

/-- A buffer holds sound changes. -/
def IsSound (base : Store C) (buffer : Buffer C) : Prop :=
  ∃ changes, buffer.Records base changes ∧ changes.Sound base

/-! ## Expanding whole subtrees -/

section Expansion

variable (wellFormed : base.WellFormed) (allContent : base.AllContent)

include wellFormed allContent

/-- Sound changes stay sound when nodes are brought into the overlay. -/
theorem unfolds_isSound : Unfolds (IsSound base) where
  seed := by
    rintro buffer ⟨changes, records, sound⟩
    obtain ⟨after, next, seeded, unfolded, -⟩ := unfolds_seed records sound wellFormed
    rw [seeded]
    exact ⟨next, unfolded.records, unfolded.sound⟩
  expandLazy key := by
    rintro buffer ⟨changes, records, sound⟩
    obtain ⟨after, next, expanded, unfolded, -⟩ :=
      unfolds_expandLazy records sound wellFormed allContent key
    rw [expanded]
    exact ⟨next, unfolded.records, unfolded.sound⟩

omit wellFormed in
/-- The content of a base node may take the place of a reference to it. -/
theorem exists_copyTarget (records : buffer.Records base changes) (valid : changes.Valid base)
    (key : Key) : ∃ after next, (copyTarget key).effect buffer = (.ok (), after) ∧
      after.Records base next ∧ (next = changes ∧ (∀ above reference,
          changes.overlay key ≠ some ⟨above, .nodeReference reference⟩) ∨
        ∃ above value, changes.shown base key = some ⟨above, .content value⟩ ∧
          next = changes.place key ⟨above, .content value⟩ ∧
          changes.Fits base key ⟨above, .content value⟩) := by
  rw [copyTarget, Edit.effect_current_bind, Store.payload?_eq, records.overlay]
  cases found : changes.overlay key with
  | none => exact ⟨buffer, changes, rfl, records, .inl ⟨rfl, nofun⟩⟩
  | some standing =>
      obtain ⟨above, payload⟩ := standing
      cases payload with
      | content value => exact ⟨buffer, changes, rfl, records, .inl ⟨rfl, nofun⟩⟩
      | treeReference reference => exact ⟨buffer, changes, rfl, records, .inl ⟨rfl, nofun⟩⟩
      | nodeReference reference =>
          obtain ⟨-, target, there⟩ := valid.admits key _ found
          have read : (buffer.backingTree.payload reference.key).result = .ok target.payload := by
            rw [records.backingTree]
            exact result_payload_of_found (result_node_base there)
          obtain ⟨value, content⟩ := allContent.exists_content there
          rw [content] at read
          obtain ⟨after, updated, records'⟩ := records.updateOverlay found (.content value)
          refine ⟨after, _, (Edit.effect_liftM_bind read).trans updated, records',
            .inr ⟨above, value, ?_, rfl, trivial, rfl, ?_, .inl ⟨⟨_, found⟩, ?_⟩,
              nonempty_of_holds ⟨_, found⟩⟩⟩
          · rw [Changes.shown_of_overlay found, Store.lend_of_reference rfl there, content]
          · rintro parent ⟨⟩ isLazy
            exact valid.leaf parent key isLazy ⟨_, found⟩
          · rintro ⟨_, _, found'⟩
            rw [found] at found'
            cases found'

theorem keeps_copyTarget (key : Key) : Edit.Keeps (IsSound base) (copyTarget key) := by
  rintro buffer ⟨changes, records, sound⟩
  obtain ⟨after, next, copied, records', ⟨rfl, -⟩ | ⟨above, value, -, rfl, fits⟩⟩ :=
    exists_copyTarget allContent records sound.toValid key
  · rw [copied]
    exact ⟨next, records', sound⟩
  · rw [copied]
    exact ⟨_, records', sound.place wellFormed fits records'.isTree_overlay⟩

theorem keeps_expandAll (key : Key) : Edit.Keeps (IsSound base) (expandAll key) :=
  (unfolds_isSound wellFormed allContent).keeps_expandAll (keeps_copyTarget wellFormed allContent) key

end Expansion

/-! ## Storing a node -/

end Buffer

/-- A stored node leaves sound changes. For a tree-reference the base subtree of its target has to be
readable, and for a number that was drawn nothing of the base may be left behind below it. -/
def Changes.Settled (base : Store C) (changes : Changes C) (parent : Option Key)
    (placement : Placement) (key : Key) : Payload C → Prop
  | .treeReference _ => changes.Restorable base key
  | .content _ | .nodeReference _ =>
    ∀ place above, placement = .automatic place → parent = some above → above.position? = none →
      changes.Accounted base key

/-- What changes become once a node has been put into them and, if it is a tree-reference, restored. They
are valid, and only base nodes have been deleted. -/
structure Changes.Stored (base : Store C) (changes : Changes C) (key : Key) (standing : Standing C)
    (final : Changes C) : Prop where
  valid : final.Valid base
  deleted : ∀ other, final.deleted other → changes.deleted other ∨ base.layout.Holds other
  lazily : standing.payload.isTreeReference = true → (changes.place key standing).Restoring base key →
    (final.Sound base ↔ final.Restorable base key)
  plainly : standing.payload.isTreeReference = false → final = changes.place key standing

namespace Buffer

variable {base : Store C} {changes : Changes C} {buffer after : Buffer C} {key : Key}
  {parent above : Option Key} {placement : Placement} {payload : Payload C}

/-- A node that was put below one that is not lazy is restored if it is a tree-reference, and left as it is
otherwise. -/
theorem Records.stored (records : buffer.Records base (changes.place key ⟨above, payload⟩))
    (wellFormed : base.WellFormed) (valid : changes.Valid base) (admits : base.Admits key payload)
    (below : ∀ parent, above = some parent → ¬ changes.IsLazy parent) :
    ∃ after final, (Edit.when payload.isTreeReference (Buffer.restore key)).effect buffer =
      (.ok (), after) ∧ after.Records base final ∧ changes.Stored base key ⟨above, payload⟩ final := by
  have isTree := records.isTree_overlay
  cases kind : payload.isTreeReference with
  | false =>
      refine ⟨buffer, _, rfl, records, valid.place_plain admits below kind isTree, fun _ => .inl,
        fun isReference => ?_, fun _ => rfl⟩
      rw [kind] at isReference
      cases isReference
  | true =>
      obtain ⟨reference, rfl⟩ := Payload.exists_of_isTreeReference kind
      obtain ⟨after, restored, records', relazing, restores, alone⟩ :=
        records.relaze wellFormed (valid.relazing admits below isTree)
      exact ⟨after, _, restored, records', relazing.valid_settle alone,
        fun _ => Changes.deleted_settle_strip,
        fun _ restoring => (restores restoring).sound_settle_iff wellFormed.isTree alone,
        fun notReference => nomatch notReference⟩

/-- A payload that resolves may stand under the key of the node that is updated. -/
theorem admits_of_checkUpdatedReference (resolves : base.Resolves payload)
    (stored : (checkUpdatedReference key payload).result = .ok ()) : base.Admits key payload := by
  refine resolves.admits ?_
  rintro reference rfl
  exact of_decide_eq_true (Read.result_require_eq_ok stored)

/-- An update that succeeds is one of a key that is shown, with a payload that may be stored there. -/
theorem checks_of_update (records : buffer.Records base changes)
    (ok : (update key payload).effect buffer = (.ok (), after)) :
    (buffer.checkPayload payload).result = .ok () ∧
      (checkUpdatedReference key payload).result = .ok () ∧ (changes.shown base).Holds key := by
  rw [update, Edit.effect_current_bind] at ok
  obtain ⟨⟨⟩, checked, ok⟩ := Edit.effect_liftM_bind_eq_ok ok
  obtain ⟨⟨⟩, stored, ok⟩ := Edit.effect_liftM_bind_eq_ok ok
  obtain ⟨⟨⟩, first, reached, -⟩ := Edit.effect_bind_eq_ok ok
  exact ⟨checked, stored, holds_of_reach records reached⟩

section Storing

variable (records : buffer.Records base changes) (sound : changes.Sound base)
  (wellFormed : base.WellFormed) (allContent : base.AllContent)

include records sound wellFormed allContent

/-- An update of a node that is shown, with a payload that may be stored, comes down to restoring the
node if it is to be lazy. -/
theorem exists_update (checked : (buffer.checkPayload payload).result = .ok ())
    (stored : (checkUpdatedReference key payload).result = .ok ())
    (holds : (changes.shown base).Holds key) :
    ∃ (prepared middle : Buffer C) (last : Changes C) (above : Option Key) (old : Payload C),
      (update key payload).effect buffer =
        (Edit.when payload.isTreeReference (restore key)).effect middle ∧
      middle.Records base (last.place key ⟨above, payload⟩) ∧ Unfolded base changes prepared last ∧
      last.Enters base key ⟨above, payload⟩ ∧ last.overlay key = some ⟨above, old⟩ ∧
      (payload.isTreeReference = false → ¬ last.IsLazy key) := by
  have admits := admits_of_checkUpdatedReference (resolves_of_checkPayload records checked) stored
  obtain ⟨first, middle, reached, unfolded, inside⟩ :=
    unfolds_reach records sound wellFormed allContent holds
  obtain ⟨second, last, expanded, unfolded', notLazy⟩ : ∃ (second : Buffer C) (last : Changes C),
      (Edit.when (!payload.isTreeReference) (expandLazy key)).effect first = (.ok (), second) ∧
      Unfolded base middle second last ∧ (payload.isTreeReference = false → ¬ last.IsLazy key) := by
    cases kind : payload.isTreeReference with
    | true =>
        exact ⟨first, middle, rfl, .refl unfolded.records unfolded.sound,
          fun notReference => nomatch notReference⟩
    | false =>
        obtain ⟨second, last, expanded, unfolded', notLazy⟩ :=
          unfolds_expandLazy unfolded.records unfolded.sound wellFormed allContent key
        exact ⟨second, last, expanded, unfolded', fun _ => notLazy⟩
  obtain ⟨⟨above, old⟩, found⟩ := unfolded'.holds key inside
  obtain ⟨third, updated, records'⟩ := unfolded'.records.updateOverlay found payload
  refine ⟨second, third, last, above, old, ?_, records', unfolded.trans unfolded', ?_, found,
    notLazy⟩
  · rw [update, Edit.effect_current_bind, Edit.effect_liftM_bind checked,
      Edit.effect_liftM_bind stored, Edit.effect_bind_of_ok reached,
      Edit.effect_bind_of_ok expanded, Edit.effect_bind_of_ok updated]
  · refine ⟨admits, ?_, .inl ⟨_, found⟩, nonempty_of_holds ⟨_, found⟩⟩
    rintro parent ⟨⟩ isLazy
    exact unfolded'.sound.leaf parent key isLazy ⟨old, found⟩

/-- After an update that succeeds the changes are valid, and they are sound if a tree-reference could
be restored. -/
theorem settled_of_update (ok : (update key payload).effect buffer = (.ok (), after)) :
    ∃ final, after.Records base final ∧ final.Valid base ∧
      (final.Sound base ↔ final.Settled base none (.exactly key) key payload) := by
  obtain ⟨checked, stored, holds⟩ := checks_of_update records ok
  obtain ⟨prepared, middle, last, above, old, same, records', unfolded, enters, found, notLazy⟩ :=
    exists_update records sound wellFormed allContent checked stored holds
  have soundLast := unfolded.sound
  rw [same] at ok
  obtain ⟨after', final, finished, records'', stored⟩ :=
    records'.stored wellFormed soundLast.toValid enters.admits enters.below
  obtain rfl := Edit.after_unique finished ok
  refine ⟨final, records'', stored.valid, ?_⟩
  have plain : payload.isTreeReference = false → final.Sound base := by
    intro notReference
    rw [stored.plainly notReference]
    exact soundLast.place wellFormed ⟨enters.admits, notReference, enters.below,
      .inl ⟨⟨_, found⟩, notLazy notReference⟩, enters.nonempty⟩ records'.isTree_overlay
  cases payload with
  | treeReference reference =>
      exact stored.lazily rfl (enters.restoring soundLast records'.isTree_overlay)
  | content value => exact iff_of_true (plain rfl) fun _ _ automatic => nomatch automatic
  | nodeReference reference => exact iff_of_true (plain rfl) fun _ _ automatic => nomatch automatic

end Storing

/-- What an insertion finds once everything that it needs is in the overlay. -/
structure Prepared (base : Store C) (changes : Changes C) (parent explicit : Option Key)
    (payload : Payload C) (existed : Bool) : Prop where
  below : ∀ above, parent = some above → changes.overlay.Holds above ∧ ¬ changes.IsLazy above
  nonempty : (∀ key, changes.overlay key = none) → ∀ key, changes.shown base key = none
  found : ∀ key, explicit = some key →
    existed = true ∧ changes.overlay.Holds key ∧
        (payload.isTreeReference = false → ¬ changes.IsLazy key) ∨
      existed = false ∧ changes.shown base key = none
  drawn : explicit = none → existed = false

section Inserting

variable (records : buffer.Records base changes) (sound : changes.Sound base)
  (wellFormed : base.WellFormed) (allContent : base.AllContent)

include records sound wellFormed allContent

/-- An insertion brings its parent into the overlay, with its children, or the parent is not shown. -/
theorem prepareParent_cases (parent : Option Key) :
    (∃ above, parent = some above ∧ changes.shown base above = none) ∨
      ∃ first middle, (prepareParent parent).effect buffer = (.ok (), first) ∧
        Unfolded base changes first middle ∧
        (∀ above, parent = some above → middle.overlay.Holds above ∧ ¬ middle.IsLazy above) ∧
        ((∀ key, middle.overlay key = none) → ∀ key, middle.shown base key = none) ∧
        Opens changes middle fun other =>
          ∃ above, parent = some above ∧ (other = above ∨ base.layout.Within other above) := by
  cases parent with
  | none =>
      obtain ⟨first, middle, seeded, unfolded, nonempty, opens⟩ := exists_seed records sound wellFormed
      refine .inr ⟨first, middle, seeded, unfolded, fun above same => (nomatch same), fun empty => ?_,
        opens.mono fun other opened => opened.elim⟩
      rw [unfolded.shown_eq]
      exact nonempty empty
  | some above =>
      by_cases absent : changes.shown base above = none
      · exact .inl ⟨above, rfl, absent⟩
      · obtain ⟨first, middle, prepared, unfolded, inside, notLazy, opens⟩ :=
          unfolds_prepareParent records sound wellFormed allContent
            (Layout.holds_iff_ne_none.mpr absent)
        refine .inr ⟨first, middle, prepared, unfolded, ?_, nonempty_of_holds inside,
          opens.mono fun other opened => ⟨above, rfl, opened⟩⟩
        rintro _ ⟨⟩
        exact ⟨inside, notLazy⟩

/-- An insertion that succeeds has brought its parent into the overlay, with its children. -/
theorem unfolds_of_insert
    (checked : (buffer.checkPayload payload).result = .ok ())
    (stored : (checkInsertedReference (explicitKey parent placement) payload).result = .ok ())
    (ok : (insert parent placement payload).effect buffer = (.ok key, after)) :
    ∃ first middle, (prepareParent parent).effect buffer = (.ok (), first) ∧
      Unfolded base changes first middle ∧
      (∀ above, parent = some above → middle.overlay.Holds above ∧ ¬ middle.IsLazy above) ∧
      ((∀ key, middle.overlay key = none) → ∀ key, middle.shown base key = none) := by
  rcases prepareParent_cases records sound wellFormed allContent parent with
    ⟨above, rfl, absent⟩ | ⟨first, middle, prepared, unfolded, below, nonempty, -⟩
  · rw [effect_insert_of_error checked stored (effect_prepareParent_of_absent records absent)] at ok
    cases ok
  · exact ⟨first, middle, prepared, unfolded, below, nonempty⟩

/-- The node that an insertion moves comes into the overlay, with its children unless it is to become
a tree-reference. -/
theorem unfolds_explicit (explicit : Option Key) (payload : Payload C) :
    ∃ existed second third last, (prepareMoved explicit).effect buffer = (.ok existed, second) ∧
      (Edit.when (existed && !payload.isTreeReference)
        (explicit.toList.forM expandLazy)).effect second = (.ok ⟨⟩, third) ∧
      Unfolded base changes third last ∧
      (∀ key, explicit = some key →
        existed = true ∧ last.overlay.Holds key ∧
            (payload.isTreeReference = false → ¬ last.IsLazy key) ∨
          existed = false ∧ last.shown base key = none) ∧
      (explicit = none → existed = false) ∧
      Opens changes last fun other => ∃ key, explicit = some key ∧
        ((other = key ∧ payload.isTreeReference = false) ∨ other ≠ key ∧ base.layout.Within other key) := by
  cases explicit with
  | none =>
      exact ⟨false, buffer, buffer, changes, rfl, rfl, .refl records sound,
        fun key same => (nomatch same), fun _ => rfl, .refl changes _⟩
  | some key =>
      cases kind : payload.isTreeReference with
      | true =>
          obtain ⟨existed, second, last, moved, unfolded, inside, opens⟩ :=
            unfolds_prepareMoved records sound wellFormed allContent key
          refine ⟨existed, second, second, last, moved, ?_, unfolded, ?_, fun same => (nomatch same),
            opens.mono fun other opened => ⟨key, rfl, .inr opened⟩⟩
          · rw [Bool.not_true, Bool.and_false]
            rfl
          · rintro _ ⟨⟩
            rw [unfolded.shown_eq]
            exact inside.imp_left fun there =>
              ⟨there.1, there.2, fun notReference => nomatch notReference⟩
      | false =>
          obtain ⟨existed, second, third, last, moved, expanded, unfolded, inside, opens⟩ :=
            unfolds_moved records sound wellFormed allContent key
          refine ⟨existed, second, third, last, moved, ?_, unfolded, ?_, fun same => (nomatch same),
            opens.mono fun other opened => ⟨key, rfl, ?_⟩⟩
          · rw [Bool.not_false, Bool.and_true]
            exact expanded
          · rintro _ ⟨⟩
            rw [unfolded.shown_eq]
            exact inside.imp_left fun there => ⟨there.1, there.2.1, fun _ => there.2.2⟩
          · by_cases same : other = key
            · exact .inl ⟨same, rfl⟩
            · exact .inr ⟨same, opened.resolve_left same⟩

/-- After its parent, an insertion prepares the node that it moves. -/
theorem exists_prepared_node {start : Changes C} (unfolded : Unfolded base start buffer changes)
    (below : ∀ above, parent = some above →
      changes.overlay.Holds above ∧ ¬ changes.IsLazy above)
    (nonempty : (∀ key, changes.overlay key = none) → ∀ key, changes.shown base key = none)
    (placement : Placement) (payload : Payload C) :
    ∃ existed second third last,
      (prepareMoved (explicitKey parent placement)).effect buffer = (.ok existed, second) ∧
      (Edit.when (existed && !payload.isTreeReference)
        ((explicitKey parent placement).toList.forM expandLazy)).effect second = (.ok ⟨⟩, third) ∧
      Unfolded base start third last ∧
      Prepared base last parent (explicitKey parent placement) payload existed ∧
      Opens changes last fun other => ∃ key, explicitKey parent placement = some key ∧
        ((other = key ∧ payload.isTreeReference = false) ∨ other ≠ key ∧ base.layout.Within other key) := by
  obtain ⟨existed, second, third, last, moved, expanded, unfolded', found, drawn, opens⟩ :=
    unfolds_explicit records sound wellFormed allContent (explicitKey parent placement) payload
  refine ⟨existed, second, third, last, moved, expanded, unfolded.trans unfolded',
    ⟨fun above same => ?_, unfolded'.nonempty nonempty, found, drawn⟩, opens⟩
  obtain ⟨inside, notLazy⟩ := below above same
  exact ⟨unfolded'.holds above inside, unfolded'.not_isLazy inside notLazy⟩

/-- An insertion that succeeds places its node once everything is prepared. -/
theorem exists_placeNode (ok : (insert parent placement payload).effect buffer = (.ok key, after)) :
    ∃ existed third last, (placeNode parent placement payload existed).effect third =
        (.ok key, after) ∧ Unfolded base changes third last ∧
      Prepared base last parent (explicitKey parent placement) payload existed ∧
      base.Resolves payload ∧
      (checkInsertedReference (explicitKey parent placement) payload).result = .ok () := by
  have inserted := ok
  rw [insert, Edit.effect_current_bind] at inserted
  obtain ⟨⟨⟩, checked, inserted⟩ := Edit.effect_liftM_bind_eq_ok inserted
  obtain ⟨⟨⟩, stored, -⟩ := Edit.effect_liftM_bind_eq_ok inserted
  obtain ⟨first, middle, prepared, unfolded, below, nonempty⟩ :=
    unfolds_of_insert records sound wellFormed allContent checked stored ok
  obtain ⟨existed, second, third, last, moved, expanded, unfolded, ready, -⟩ :=
    exists_prepared_node unfolded.records unfolded.sound wellFormed allContent unfolded below
      nonempty placement payload
  rw [effect_insert checked stored prepared moved expanded] at ok
  exact ⟨existed, third, last, ok, unfolded, ready, resolves_of_checkPayload records checked,
    stored⟩

end Inserting

/-- An insertion tells the key that was asked for. -/
theorem key_of_insertOverlay {chosen : Key} (explicit : explicitKey parent placement = some chosen)
    (ok : (insertOverlay parent placement payload).effect buffer = (.ok key, after)) :
    key = chosen := by
  have inserted := insert_of_insertOverlay ok
  cases parent with
  | none =>
      have same : placement.rootKey = chosen := by
        cases placement <;> exact Option.some.inj explicit
      exact (Store.put_of_insert_root inserted).1.symm.trans same
  | some above =>
      obtain rfl : placement = .exactly chosen := by
        cases placement with
        | exactly other => rw [Option.some.inj explicit]
        | automatic place => cases explicit
      obtain ⟨-, supply, allocated, -⟩ := Store.chosen_of_insert inserted
      cases allocated
      rfl

/-- A node that the overlay took stands there. -/
theorem Records.placed (records : buffer.Records base changes)
    (ok : (Buffer.insertOverlay parent placement payload).effect buffer = (.ok key, after)) :
    after.Records base (changes.place key ⟨parent, payload⟩) := by
  rw [effect_insertOverlay, Prod.mk.injEq] at ok
  obtain ⟨told, rfl⟩ := ok
  obtain ⟨wellFormed, layout_eq⟩ := records.wellFormed.insert_eq_ok (Prod.ext told rfl)
  refine ⟨records.backing, wellFormed, ?_, records.deleted⟩
  rw [layout_eq, records.overlay]
  rfl

/-- Below a parent with a position, the key that the overlay chose is new to it. -/
theorem Records.absent_of_insertOverlay {parent : Key} {position : PathKey} {place : Place}
    (records : buffer.Records base changes) (positioned : parent.position? = some position)
    (ok : (Buffer.insertOverlay (some parent) (.automatic place) payload).effect buffer =
      (.ok key, after)) : changes.overlay key = none := by
  rw [← records.overlay]
  exact Store.absent_of_insert_automatic positioned (insert_of_insertOverlay ok)

/-- A payload that resolves may stand under the key of the node that the overlay took. -/
theorem admits_of_insertOverlay (resolves : base.Resolves payload)
    (stored : (checkInsertedReference (explicitKey parent placement) payload).result = .ok ())
    (inserted : (insertOverlay parent placement payload).effect buffer = (.ok key, after)) :
    base.Admits key payload := by
  refine resolves.admits ?_
  rintro reference rfl
  have explicit := of_decide_eq_true (Read.result_require_eq_ok stored)
  exact (key_of_insertOverlay explicit inserted).symm

/-- A node that the overlay took may be put under its key, if the key is that of an overlay node or
nothing is shown under it. -/
theorem Prepared.enters {existed : Bool}
    (prepared : Prepared base changes parent (explicitKey parent placement) payload existed)
    (resolves : base.Resolves payload)
    (stored : (checkInsertedReference (explicitKey parent placement) payload).result = .ok ())
    (inserted : (insertOverlay parent placement payload).effect buffer = (.ok key, after))
    (drawn : explicitKey parent placement = none →
      changes.overlay.Holds key ∨ changes.shown base key = none) :
    changes.Enters base key ⟨parent, payload⟩ := by
  refine ⟨admits_of_insertOverlay resolves stored inserted,
    fun above same => (prepared.below above same).2, ?_, prepared.nonempty⟩
  cases explicit : explicitKey parent placement with
  | none => exact drawn explicit
  | some chosen =>
      obtain rfl := key_of_insertOverlay explicit inserted
      exact (prepared.found key explicit).imp (fun there => there.2.1) And.right

/-- Only an automatic place below a parent leaves the choice of the key to the tree. -/
theorem exists_of_automatic (automatic : explicitKey parent placement = none) :
    ∃ above place, parent = some above ∧ placement = .automatic place := by
  cases placement with
  | exactly key => cases automatic
  | automatic place =>
      cases parent with
      | none => cases automatic
      | some above => exact ⟨above, place, rfl, rfl⟩

/-- Where the choice of the key is left to the tree, no tree-reference is stored. -/
theorem not_isTreeReference_of_automatic (automatic : explicitKey parent placement = none)
    (stored : (checkInsertedReference (explicitKey parent placement) payload).result = .ok ()) :
    ¬ payload.isTreeReference = true := by
  intro kind
  cases payload with
  | content value => cases kind
  | nodeReference reference => cases kind
  | treeReference reference =>
      rw [automatic] at stored
      cases stored

/-- A check that passes changes nothing, and a new key that passes was not shown before. -/
theorem gone_of_rejectTakenKey {isTreeReference : Bool} (records : buffer.Records base changes)
    (ok : (rejectTakenKey key isTreeReference).effect buffer = (.ok (), after)) :
    after = buffer ∧ (isTreeReference = false → changes.deleted key ∨ base.layout key = none) := by
  rw [rejectTakenKey, Edit.effect_current_bind] at ok
  obtain ⟨contained, contains, ok⟩ := Edit.effect_liftM_bind_eq_ok ok
  rw [records.backingTree] at contains
  rw [Edit.effect_when] at ok
  by_cases taken : (contained && !buffer.deleted.contains key && !isTreeReference) = true
  · rw [if_pos taken] at ok
    obtain ⟨⟨⟩, middle, -, failed⟩ := Edit.effect_bind_eq_ok ok
    cases failed
  · rw [if_neg taken] at ok
    cases ok
    refine ⟨rfl, fun notReference => ?_⟩
    by_contra present
    obtain ⟨kept, there⟩ := not_or.mp present
    have shown : contained = true := by
      rw [← Except.ok.inj contains]
      exact Store.contains_iff_holds.mpr (Layout.holds_iff_ne_none.mpr there)
    have notDeleted : buffer.deleted.contains key = false := by
      rw [← Bool.not_eq_true, records.contains_deleted]
      exact kept
    rw [shown, notDeleted, notReference] at taken
    exact taken rfl

section Inserting

variable (records : buffer.Records base changes) (sound : changes.Sound base)
  (wellFormed : base.WellFormed) (allContent : base.AllContent)

include records sound wellFormed allContent

/-- After an insertion that succeeds the changes are valid, and they are sound if the node that was
stored settled. -/
theorem settled_of_insert (ok : (insert parent placement payload).effect buffer = (.ok key, after)) :
    ∃ final, after.Records base final ∧ final.Valid base ∧
      (final.Sound base ↔ final.Settled base parent placement key payload) := by
  obtain ⟨existed, third, last, placed, unfolded, prepared, resolves, stored⟩ :=
    exists_placeNode records sound wellFormed allContent ok
  have records := unfolded.records
  have sound := unfolded.sound
  rw [placeNode] at placed
  obtain ⟨told, fourth, inserted, placed⟩ := Edit.effect_bind_eq_ok placed
  obtain ⟨⟨⟩, fifth, rejected, placed⟩ := Edit.effect_bind_eq_ok placed
  obtain ⟨⟨⟩, sixth, restored, placed⟩ := Edit.effect_bind_eq_ok placed
  cases placed
  have records' := records.placed inserted
  -- below a parent that leaves the choice of the key to the tree, the key is checked
  have drawn : explicitKey parent placement = none →
      payload.isTreeReference = false ∧ (last.deleted key ∨ base.layout key = none) := by
    intro automatic
    have notReference := not_isTreeReference_of_automatic automatic stored
    rw [Bool.not_eq_true] at notReference
    rw [prepared.drawn automatic] at rejected
    exact ⟨notReference, (gone_of_rejectTakenKey records' rejected).2 notReference⟩
  have unchanged : fifth = fourth := by
    cases existed with
    | true =>
        have skipped : (Edit.when false (rejectTakenKey key payload.isTreeReference)).effect fourth =
            (.ok (), fourth) := rfl
        exact Edit.after_unique rejected skipped
    | false => exact (gone_of_rejectTakenKey records' rejected).1
  subst unchanged
  have enters : last.Enters base key ⟨parent, payload⟩ := by
    refine prepared.enters resolves stored inserted fun explicit => ?_
    exact Classical.or_iff_not_imp_left.mpr fun absent =>
      Changes.shown_eq_none_iff.mpr ⟨Layout.not_holds_iff.mp absent, (drawn explicit).2⟩
  obtain ⟨after', final, finished, records'', settled⟩ :=
    records'.stored wellFormed sound.toValid enters.admits enters.below
  obtain rfl := Edit.after_unique finished restored
  refine ⟨final, records'', settled.valid, ?_⟩
  have plain : payload.isTreeReference = false → (final.Sound base ↔
      ∀ place above, placement = .automatic place → parent = some above →
        above.position? = none → final.Accounted base key) := by
    intro notReference
    rw [settled.plainly notReference]
    have sound_iff := enters.sound_place_iff sound notReference records'.isTree_overlay
    refine ⟨fun sound _ _ _ _ _ => sound_iff.mp sound, fun accounted => ?_⟩
    cases explicit : explicitKey parent placement with
    | some chosen =>
        obtain rfl := key_of_insertOverlay explicit inserted
        exact sound.place wellFormed ⟨enters.admits, notReference, enters.below,
          (prepared.found key explicit).imp (fun there => ⟨there.2.1, there.2.2 notReference⟩)
            And.right, enters.nonempty⟩ records'.isTree_overlay
    | none =>
        obtain ⟨above, place, rfl, rfl⟩ := exists_of_automatic explicit
        cases positioned : above.position? with
        | none => exact sound_iff.mpr (accounted place above rfl rfl positioned)
        | some position =>
            have absent := records.absent_of_insertOverlay positioned inserted
            exact sound.place wellFormed ⟨enters.admits, notReference, enters.below,
              .inr (Changes.shown_eq_none_iff.mpr ⟨absent, (drawn explicit).2⟩),
              enters.nonempty⟩ records'.isTree_overlay
  cases payload with
  | treeReference reference =>
      exact settled.lazily rfl (enters.restoring sound records'.isTree_overlay)
  | content value => exact plain rfl
  | nodeReference reference => exact plain rfl

end Inserting

end Buffer

/-! ## Runs -/

/-- The edits of a buffer. -/
inductive BufferEdit (C : Type) where
  | insert (parent : Option Key) (placement : Placement) (payload : Payload C)
  | update (key : Key) (payload : Payload C)
  | delete (key : Key)
  | expandAll (key : Key)
  | replace (delta : Tree C)
  | applyDelta (delta : Delta C)
  | reset

namespace BufferEdit

/-- Carries an edit out. An insertion tells a key. -/
def edit : BufferEdit C → Edit (Buffer C) (Option Key)
  | .insert parent placement payload => some <$> Buffer.insert parent placement payload
  | .update key payload => (fun _ => none) <$> Buffer.update key payload
  | .delete key => (fun _ => none) <$> Buffer.delete key
  | .expandAll key => (fun _ => none) <$> Buffer.expandAll key
  | .replace delta => (fun _ => none) <$> Buffer.replace delta
  | .applyDelta delta => (fun _ => none) <$> Buffer.applyDelta delta
  | .reset => (fun _ => none) <$> Buffer.reset

/-- The node that an edit stored has settled. -/
def Settles (base : Store C) (after : Buffer C) : BufferEdit C → Option Key → Prop
  | .insert parent placement payload, some key =>
    after.changes.Settled base parent placement key payload
  | .update key payload, _ => after.changes.Settled base none (.exactly key) key payload
  | _, _ => True

/-- An edit drops what a buffer held before. -/
def Renews : BufferEdit C → Prop
  | .replace _ | .applyDelta _ | .reset => True
  | .insert _ _ _ | .update _ _ | .delete _ | .expandAll _ => False

end BufferEdit

/-- A buffer after a run of edits that succeeded and settled. -/
inductive CleanRun (base : Store C) : Buffer C → Prop where
  | fresh (settings : ViewSettings) (trap : Option Trap) :
      CleanRun base (Buffer.unchanged (.store base) settings trap)
  | seeded (settings : ViewSettings) (trap : Option Trap) :
      CleanRun base (Buffer.seed.effect (Buffer.unchanged (.store base) settings trap)).2
  | renewed {buffer after : Buffer C} (backing : buffer.backing = .store base)
      (edit : BufferEdit C) (renews : edit.Renews) {told : Option Key}
      (ok : edit.edit.effect buffer = (.ok told, after)) : CleanRun base after
  | step {buffer after : Buffer C} (run : CleanRun base buffer) (edit : BufferEdit C)
      {told : Option Key} (ok : edit.edit.effect buffer = (.ok told, after))
      (settles : edit.Settles base after told) : CleanRun base after

namespace Buffer

variable {base : Store C} {buffer after : Buffer C} {edit : BufferEdit C} {told : Option Key}

/-- A delta is applied as its tree is. -/
theorem replaced_of_applyDelta {delta : Delta C}
    (ok : (applyDelta delta).effect buffer = (.ok (), after)) :
    (replace delta.tree.tree).effect buffer = (.ok (), after) := by
  rw [applyDelta, Edit.effect_current_bind] at ok
  obtain ⟨⟨⟩, -, ok⟩ := Edit.effect_liftM_bind_eq_ok ok
  exact ok

/-- What renews a buffer leaves sound changes. -/
theorem isSound_of_renews (wellFormed : base.WellFormed) (allContent : base.AllContent)
    (backing : buffer.backing = .store base) (ok : edit.edit.effect buffer = (.ok told, after))
    (renews : edit.Renews) : IsSound base after := by
  cases edit with
  | replace delta =>
      obtain ⟨⟨⟩, ok, -⟩ := Edit.effect_map_eq_ok ok
      exact sound_of_replace backing wellFormed allContent ok
  | applyDelta delta =>
      obtain ⟨⟨⟩, ok, -⟩ := Edit.effect_map_eq_ok ok
      exact sound_of_replace backing wellFormed allContent (replaced_of_applyDelta ok)
  | reset =>
      obtain ⟨⟨⟩, ok, -⟩ := Edit.effect_map_eq_ok ok
      cases ok
      exact ⟨_, records_reset backing, Changes.sound_untouched⟩
  | insert parent placement payload => exact renews.elim
  | update key payload => exact renews.elim
  | delete key => exact renews.elim
  | expandAll key => exact renews.elim

/-- After an edit that succeeds on sound changes the changes are valid, and they are sound exactly
when the edit settled. -/
theorem settled_of_edit (wellFormed : base.WellFormed) (allContent : base.AllContent)
    (sound : IsSound base buffer) (ok : edit.edit.effect buffer = (.ok told, after)) :
    ∃ final, after.Records base final ∧ final.Valid base ∧
      (final.Sound base ↔ edit.Settles base after told) := by
  have always : IsSound base after → edit.Settles base after told →
      ∃ final, after.Records base final ∧ final.Valid base ∧
        (final.Sound base ↔ edit.Settles base after told) :=
    fun ⟨final, records, sound⟩ settles => ⟨final, records, sound.toValid, iff_of_true sound settles⟩
  obtain ⟨changes, records, soundChanges⟩ := sound
  cases edit with
  | insert parent placement payload =>
      obtain ⟨key, inserted, rfl⟩ := Edit.effect_map_eq_ok ok
      obtain ⟨final, records', valid, settled⟩ :=
        settled_of_insert records soundChanges wellFormed allContent inserted
      refine ⟨final, records', valid, settled.trans ?_⟩
      rw [BufferEdit.Settles, records'.changes_eq]
  | update key payload =>
      obtain ⟨⟨⟩, updated, rfl⟩ := Edit.effect_map_eq_ok ok
      obtain ⟨final, records', valid, settled⟩ :=
        settled_of_update records soundChanges wellFormed allContent updated
      refine ⟨final, records', valid, settled.trans ?_⟩
      rw [BufferEdit.Settles, records'.changes_eq]
  | delete key =>
      obtain ⟨⟨⟩, deleted, rfl⟩ := Edit.effect_map_eq_ok ok
      refine always ?_ trivial
      by_cases absent : changes.shown base key = none
      · rw [Buffer.delete, Edit.effect_bind_of_error (effect_reach_of_absent records absent)] at deleted
        cases deleted
      · obtain ⟨middle, last, reached, unfolded, inside⟩ :=
          unfolds_reach records soundChanges wellFormed allContent
            (Layout.holds_iff_ne_none.mpr absent)
        obtain ⟨after', removed, records'⟩ :=
          unfolded.records.removeOverlaySubtree wellFormed unfolded.sound.admits inside
        rw [Buffer.delete, Edit.effect_bind_of_ok reached] at deleted
        obtain rfl := Edit.after_unique removed deleted
        exact ⟨_, records', unfolded.sound.remove wellFormed.isTree key⟩
  | expandAll key =>
      obtain ⟨⟨⟩, expanded, rfl⟩ := Edit.effect_map_eq_ok ok
      have kept := keeps_expandAll wellFormed allContent key buffer ⟨changes, records, soundChanges⟩
      rw [expanded] at kept
      exact always kept trivial
  | replace delta =>
      exact always (isSound_of_renews wellFormed allContent records.backing ok trivial) trivial
  | applyDelta delta =>
      exact always (isSound_of_renews wellFormed allContent records.backing ok trivial) trivial
  | reset =>
      exact always (isSound_of_renews wellFormed allContent records.backing ok trivial) trivial

/-- A clean run ends with sound changes. -/
theorem isSound_of_cleanRun (wellFormed : base.WellFormed) (allContent : base.AllContent)
    (run : CleanRun base buffer) : IsSound base buffer := by
  induction run with
  | fresh settings trap => exact ⟨_, records_unchanged base settings trap, Changes.sound_untouched⟩
  | seeded settings trap =>
      obtain ⟨after, next, seeded, unfolded, -⟩ :=
        unfolds_seed (records_unchanged base settings trap) Changes.sound_untouched wellFormed
      rw [seeded]
      exact ⟨next, unfolded.records, unfolded.sound⟩
  | renewed backing edit renews ok =>
      exact isSound_of_renews wellFormed allContent backing ok renews
  | step _ edit ok settles inductionHypothesis =>
      obtain ⟨final, records, -, sound_iff⟩ :=
        settled_of_edit wellFormed allContent inductionHypothesis ok
      exact ⟨final, records, sound_iff.mpr settles⟩

/-- After a clean run a buffer reads as one coherent tree, and after each edit that succeeds then it
does exactly when the edit settled. -/
theorem coherent_of_cleanRun (reachable : base.Reachable) (allContent : base.AllContent)
    (run : CleanRun base buffer) :
    buffer.tree.Coherent ∧ ∀ (edit : BufferEdit C) (told : Option Key) (after : Buffer C),
      edit.edit.effect buffer = (.ok told, after) →
        (after.tree.Coherent ↔ edit.Settles base after told) := by
  have wellFormed := reachable.wellFormed
  have sound := isSound_of_cleanRun wellFormed allContent run
  constructor
  · obtain ⟨changes, records, sound⟩ := sound
    exact (records.shows allContent wellFormed sound).coherent
  · intro edit told after ok
    obtain ⟨final, records, valid, sound_iff⟩ := settled_of_edit wellFormed allContent sound ok
    exact (records.coherent_iff allContent wellFormed valid).trans sound_iff

/-- The leaf of a chain is moved below the root. -/
theorem coherent_of_cleanRun_chain :
    let edit : BufferEdit String :=
      .insert (some (.number 1)) (.exactly (.number 3)) (.content "moved")
    let buffer := unchanged (.store Store.chain)
    let after := (edit.edit.effect buffer).2
    Store.chain.Reachable ∧ Store.chain.AllContent ∧ CleanRun Store.chain buffer ∧
      edit.edit.effect buffer = (.ok (some (.number 3)), after) ∧ after.tree.Coherent := by
  intro edit buffer after
  have reachable := Store.reachable_ofEdits ⟨1⟩ Store.chainEdits
  have run : CleanRun Store.chain buffer := .fresh {} none
  have ok : edit.edit.effect buffer = (.ok (some (.number 3)), after) :=
    Edit.effect_eq_of_result (by decide +kernel)
  have settles : ∀ last, edit.Settles Store.chain last (some (.number 3)) :=
    fun _ _ _ automatic => nomatch automatic
  obtain ⟨-, coherent_iff⟩ := coherent_of_cleanRun reachable Store.allContent_chain run
  exact ⟨reachable, Store.allContent_chain, run, ok, (coherent_iff edit _ after ok).mpr (settles after)⟩

/-- Once the leaf of a chain has been moved below the root, its former parent and then the leaf itself
are made to stand for their base subtrees again. -/
def restoreTwice : List (BufferEdit String) :=
  [.insert (some (.number 1)) (.exactly (.number 3)) (.content "moved"),
    .update (.number 2) (.treeReference ⟨⟨1⟩, .number 2⟩),
    .update (.number 3) (.treeReference ⟨⟨1⟩, .number 3⟩)]

/-- A node that is restored after its former parent is told twice. -/
theorem not_coherent_of_restoreTwice :
    let run := restoreTwice.mapM BufferEdit.edit
    let after := (run.effect (unchanged (.store Store.chain))).2
    (run.effect (unchanged (.store Store.chain))).1 = .ok [some (.number 3), none, none] ∧
      after.tree.keys.result = .ok [.number 1, .number 2, .number 3, .number 3] ∧
      ¬ after.tree.Coherent := by
  intro run after
  have told : after.tree.keys.result = .ok [.number 1, .number 2, .number 3, .number 3] := by
    decide +kernel
  refine ⟨by decide +kernel, told, ?_⟩
  rintro ⟨keys, same, nodup, -⟩
  rw [told] at same
  cases same
  exact absurd nodup (by decide)

end Buffer

end VersionedTrees
